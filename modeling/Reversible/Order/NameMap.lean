import Reversible.Syntax.Source

/-! # Maps keyed by names

A finite map from names is the list of its entries, strictly ascending by name.
Listing a map therefore gives name order, and `get?` determines the map.
-/

namespace Reversible

/-- A finite map from names, held as its entries in strictly ascending name order. -/
structure NameMap (α : Type) where
  entries : List (Name × α)
  ascending : entries.Pairwise fun a b => compare a.1 b.1 = .lt
deriving DecidableEq

namespace NameMap

variable {α : Type}

def empty : NameMap α := ⟨[], .nil⟩

instance : EmptyCollection (NameMap α) := ⟨empty⟩

instance : Inhabited (NameMap α) := ⟨empty⟩

def get? (m : NameMap α) (name : Name) : Option α := m.entries.lookup name

def contains (m : NameMap α) (name : Name) : Bool := (m.get? name).isSome

def keys (m : NameMap α) : List Name := m.entries.map (·.1)

def size (m : NameMap α) : Nat := m.entries.length

/-- Put an entry in its place; an entry of the same name gives way. -/
def insertEntry (name : Name) (value : α) : List (Name × α) → List (Name × α)
  | [] => [(name, value)]
  | (other, old) :: rest =>
    match compare name other with
    | .lt => (name, value) :: (other, old) :: rest
    | .eq => (name, value) :: rest
    | .gt => (other, old) :: insertEntry name value rest

theorem of_mem_insertEntry {name : Name} {value : α} {e : Name × α} {l : List (Name × α)}
    (h : e ∈ insertEntry name value l) : e = (name, value) ∨ e ∈ l := by
  induction l with
  | nil => exact .inl (List.mem_singleton.1 h)
  | cons b rest ih =>
    obtain ⟨other, old⟩ := b
    simp only [insertEntry] at h
    split at h
    · simpa using h
    · rcases List.mem_cons.1 h with rfl | h
      · exact .inl rfl
      · exact .inr (List.mem_cons_of_mem _ h)
    · rcases List.mem_cons.1 h with rfl | h
      · simp
      · exact (ih h).imp_right (List.mem_cons_of_mem _)

theorem pairwise_insertEntry {name : Name} {value : α} {l : List (Name × α)}
    (h : l.Pairwise fun a b => compare a.1 b.1 = .lt) :
    (insertEntry name value l).Pairwise fun a b => compare a.1 b.1 = .lt := by
  induction l with
  | nil => simp [insertEntry]
  | cons b rest ih =>
    obtain ⟨other, old⟩ := b
    obtain ⟨hb, hrest⟩ := List.pairwise_cons.1 h
    simp only [insertEntry]
    split
    · next hlt =>
      refine List.pairwise_cons.2 ⟨fun c hc => ?_, h⟩
      rcases List.mem_cons.1 hc with rfl | hc
      · exact hlt
      · exact Std.TransCmp.lt_trans hlt (hb c hc)
    · next heq =>
      obtain rfl := Std.LawfulEqOrd.eq_of_compare heq
      exact List.pairwise_cons.2 ⟨hb, hrest⟩
    · next hgt =>
      refine List.pairwise_cons.2 ⟨fun c hc => ?_, ih hrest⟩
      rcases of_mem_insertEntry hc with rfl | hc
      · exact Std.OrientedCmp.lt_of_gt hgt
      · exact hb c hc

def insert (m : NameMap α) (name : Name) (value : α) : NameMap α :=
  ⟨insertEntry name value m.entries, pairwise_insertEntry m.ascending⟩

/-- Set the value of a name that has none; the first value of a name stays. -/
def insertNew (m : NameMap α) (name : Name) (value : α) : NameMap α :=
  if m.contains name then m else m.insert name value

theorem lookup_cons_ite (name key : Name) (value : α) (rest : List (Name × α)) :
    ((key, value) :: rest).lookup name = if name = key then some value else rest.lookup name := by
  by_cases h : name = key
  · simp [h]
  · rw [List.lookup_cons, if_neg h, beq_false_of_ne h]

theorem lookup_insertEntry (name other : Name) (value : α) (l : List (Name × α)) :
    (insertEntry name value l).lookup other =
      if other = name then some value else l.lookup other := by
  induction l with
  | nil => simp [insertEntry, lookup_cons_ite]
  | cons b rest ih =>
    obtain ⟨key, old⟩ := b
    simp only [insertEntry]
    split
    · simp [lookup_cons_ite]
    · next heq =>
      obtain rfl := Std.LawfulEqOrd.eq_of_compare heq
      by_cases ho : other = name <;> simp [lookup_cons_ite, ho]
    · next hgt =>
      have hne : key ≠ name := by
        rintro rfl
        simp at hgt
      by_cases hk : other = key
      · subst hk
        simp [hne]
      · simp [lookup_cons_ite, hk, ih]

@[simp] theorem get?_empty (name : Name) : (∅ : NameMap α).get? name = none := rfl

theorem get?_insert (m : NameMap α) (name other : Name) (value : α) :
    (m.insert name value).get? other = if other = name then some value else m.get? other :=
  lookup_insertEntry name other value m.entries

theorem get?_insertNew (m : NameMap α) (name other : Name) (value : α) :
    (m.insertNew name value).get? other =
      if other = name then some ((m.get? name).getD value) else m.get? other := by
  by_cases ho : other = name
  · subst ho
    cases h : m.get? other <;> simp [insertNew, contains, h, get?_insert]
  · cases h : m.get? name <;> simp [insertNew, contains, h, get?_insert, ho]

end NameMap

end Reversible
