import Reversible.Place.Mention

/-! # Where places occur in expressions

The slots, the memory and the variables that an expression mentions are each collected by a
traversal of its own. All of them reach every place that occurs in the expression, at any depth
inside allocations and structure literals, and nothing else.
-/

namespace Reversible

theorem Memory.resource_path (place : Memory) : place.path.resource = place.base.path := by
  induction place with
  | deref of span => rfl
  | derefAgain of span ih => exact ih
  | member of id span ih => exact ih

namespace Storage

variable {part place : Storage}

/-- `part` is the slot, or one that it is a member of, with or without its type. -/
inductive StandsIn (part : Storage) : Storage → Prop where
  | here : StandsIn part part
  | typed {of : Storage} {type : TypeExpr} {span : Span} :
      StandsIn part of → StandsIn part (.typed of type span)
  | member {of : Storage} {id : Ident} {span : Span} :
      StandsIn part of → StandsIn part (.member of id span)

/-- `part` stands in the slot from which the memory is reached. -/
inductive StandsUnder (part : Storage) : Memory → Prop where
  | deref {of : Storage} {span : Span} : part.StandsIn of → StandsUnder part (.deref of span)
  | derefAgain {of : Memory} {span : Span} :
      StandsUnder part of → StandsUnder part (.derefAgain of span)
  | member {of : Memory} {id : Ident} {span : Span} :
      StandsUnder part of → StandsUnder part (.member of id span)

theorem StandsIn.root_eq (h : part.StandsIn place) : part.root = place.root := by
  induction h with
  | here => rfl
  | typed _ ih => exact ih
  | member _ ih => exact ih

theorem StandsUnder.root_eq {m : Memory} (h : part.StandsUnder m) : part.root = m.base.root := by
  induction h with
  | deref h => exact h.root_eq
  | derefAgain _ ih => exact ih
  | member _ ih => exact ih

theorem base_standsUnder (m : Memory) : m.base.StandsUnder m := by
  induction m with
  | deref of span => exact .deref .here
  | derefAgain of span ih => exact .derefAgain ih
  | member of id span ih => exact .member ih

end Storage

namespace Expr

/-- Induction on expressions, with a hypothesis for each member of a structure literal. -/
@[elab_as_elim]
theorem inductionOn {motive : Expr → Prop} (e : Expr) (int : ∀ value span, motive (.int value span))
    (null : ∀ span, motive (.null span))
    (record : ∀ members span, (∀ m ∈ members, motive m.2) → motive (.record members span))
    (allocation : ∀ of span, motive of → motive (.allocation of span))
    (storage : ∀ place, motive (.storage place)) (memory : ∀ place, motive (.memory place)) :
    motive e :=
  @Expr.rec motive (fun members => ∀ m ∈ members, motive m.2) (fun m => motive m.2) int null record
    allocation storage memory (by simp) (fun _ _ hm hrest => List.forall_mem_cons.mpr ⟨hm, hrest⟩)
    (fun _ _ hvalue => hvalue) e

/-- `part` is the expression or stands somewhere inside it. -/
inductive Occurs (part : Expr) : Expr → Prop where
  | here : Occurs part part
  | allocation {of : Expr} {span : Span} : Occurs part of → Occurs part (.allocation of span)
  | member {m : Ident × Expr} {members : List (Ident × Expr)} {span : Span} :
    m ∈ members → Occurs part m.2 → Occurs part (.record members span)

variable {e part : Expr}

section Traversal

variable {α : Type} {c : Expr → List α}

/-- A traversal that collects from the places of an expression. -/
structure Collects (c : Expr → List α) : Prop where
  int : ∀ value span, c (.int value span) = []
  null : ∀ span, c (.null span) = []
  record : ∀ members span, c (.record members span) = members.flatMap fun m => c m.2
  allocation : ∀ of span, c (.allocation of span) = c of

theorem Collects.mem_of_occurs (h : Collects c) (ho : Occurs part e) {x : α} (hx : x ∈ c part) :
    x ∈ c e := by
  induction ho with
  | here => exact hx
  | allocation _ ih => rwa [h.allocation]
  | member hm _ ih =>
    rw [h.record]
    exact List.mem_flatMap.mpr ⟨_, hm, ih⟩

/-- What a traversal collects, it collects from places that occur in the expression, and it leaves
out none of them. -/
theorem Collects.mem_iff (h : Collects c) {x : α} : x ∈ c e ↔
    (∃ place, Occurs (.storage place) e ∧ x ∈ c (.storage place)) ∨
      ∃ place, Occurs (.memory place) e ∧ x ∈ c (.memory place) := by
  constructor
  · intro hx
    induction e using inductionOn with
    | int value span => simp [h.int] at hx
    | null span => simp [h.null] at hx
    | record members span ih =>
      rw [h.record, List.mem_flatMap] at hx
      obtain ⟨m, hm, hx⟩ := hx
      refine (ih m hm hx).imp ?_ ?_
      · rintro ⟨place, ho, hx⟩
        exact ⟨place, .member hm ho, hx⟩
      · rintro ⟨place, ho, hx⟩
        exact ⟨place, .member hm ho, hx⟩
    | allocation of span ih =>
      rw [h.allocation] at hx
      refine (ih hx).imp ?_ ?_
      · rintro ⟨place, ho, hx⟩
        exact ⟨place, .allocation ho, hx⟩
      · rintro ⟨place, ho, hx⟩
        exact ⟨place, .allocation ho, hx⟩
    | storage place => exact .inl ⟨place, .here, hx⟩
    | memory place => exact .inr ⟨place, .here, hx⟩
  · rintro (⟨place, ho, hx⟩ | ⟨place, ho, hx⟩)
    · exact h.mem_of_occurs ho hx
    · exact h.mem_of_occurs ho hx

end Traversal

theorem collects_resourcePaths : Collects resourcePaths where
  int _ _ := rfl
  null _ := rfl
  record members _ := by
    rw [resourcePaths]
    induction members with
    | nil => rfl
    | cons m rest ih => rw [memberResourcePaths, ih, List.flatMap_cons]
  allocation _ _ := rfl

theorem collects_memories : Collects memories where
  int _ _ := rfl
  null _ := rfl
  record members _ := by
    rw [memories]
    induction members with
    | nil => rfl
    | cons m rest ih => rw [memberMemories, ih, List.flatMap_cons]
  allocation _ _ := rfl

theorem collects_roots : Collects roots where
  int _ _ := rfl
  null _ := rfl
  record members _ := by
    rw [roots]
    induction members with
    | nil => rfl
    | cons m rest ih => rw [memberRoots, ih, List.flatMap_cons]
  allocation _ _ := rfl

theorem mem_resourcePaths_iff {path : ResourcePath} :
    path ∈ e.resourcePaths ↔ ∃ place, Occurs (.storage place) e ∧ place.path = path := by
  simp [collects_resourcePaths.mem_iff, resourcePaths, eq_comm]

theorem mem_memories_iff {place : Memory} : place ∈ e.memories ↔ Occurs (.memory place) e := by
  simp [collects_memories.mem_iff, memories]

theorem mem_roots_iff {id : Ident} : id ∈ e.roots ↔
    (∃ place, Occurs (.storage place) e ∧ place.root = id) ∨
      ∃ place, Occurs (.memory place) e ∧ place.base.root = id := by
  simp [collects_roots.mem_iff, roots, eq_comm]

/-- The slot stands somewhere in the expression, also under memory. -/
def Contains (e : Expr) (place : Storage) : Prop :=
  (∃ s, Occurs (.storage s) e ∧ place.StandsIn s) ∨
    ∃ m, Occurs (.memory m) e ∧ place.StandsUnder m

theorem exists_root_iff {name : Name} :
    (∃ id ∈ e.roots, id.name = name) ↔ ∃ place, e.Contains place ∧ place.root.name = name := by
  simp only [mem_roots_iff]
  constructor
  · rintro ⟨_, ⟨s, ho, rfl⟩ | ⟨m, ho, rfl⟩, hname⟩
    · exact ⟨s, .inl ⟨s, ho, .here⟩, hname⟩
    · exact ⟨m.base, .inr ⟨m, ho, Storage.base_standsUnder m⟩, hname⟩
  · rintro ⟨place, ⟨s, ho, hs⟩ | ⟨m, ho, hm⟩, hname⟩
    · exact ⟨s.root, .inl ⟨s, ho, rfl⟩, hs.root_eq ▸ hname⟩
    · exact ⟨m.base.root, .inr ⟨m, ho, rfl⟩, hm.root_eq ▸ hname⟩

end Expr

end Reversible
