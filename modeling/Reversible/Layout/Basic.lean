import Reversible.Place.Error

/-! # Layouts

A layout is an ordered forest of named slots with a value at each leaf. The slots of a
routine form one: variables at the top, the members of a structure below it. A resource path
addresses a slot; where a name occurs twice among siblings, the first one is meant.
-/

namespace Reversible

/-- Named slots in order. A slot is a leaf with a value or holds further slots. -/
inductive Layout (α : Type) where
  | nil
  | leaf (key : Name) (value : α) (rest : Layout α)
  | node (key : Name) (members : Layout α) (rest : Layout α)
deriving DecidableEq, Repr

inductive Slot (α : Type) where
  | leaf (value : α)
  | inner (members : Layout α)
deriving DecidableEq, Repr

def Layout.map {α β : Type} (f : α → β) : Layout α → Layout β
  | nil => nil
  | leaf key value rest => leaf key (f value) (map f rest)
  | node key ms rest => node key (map f ms) (map f rest)

namespace Slot

variable {α β : Type}

def map (f : α → β) : Slot α → Slot β
  | leaf value => leaf (f value)
  | inner ms => inner (ms.map f)

def members : Slot α → Layout α
  | leaf _ => .nil
  | inner ms => ms

def mapMembers (f : Layout α → Layout α) : Slot α → Slot α
  | leaf value => leaf value
  | inner ms => inner (f ms)

end Slot

namespace Layout

variable {α : Type}

instance : Inhabited (Layout α) := ⟨nil⟩

def cons (key : Name) (slot : Slot α) (rest : Layout α) : Layout α :=
  match slot with
  | .leaf value => leaf key value rest
  | .inner ms => node key ms rest

def names : Layout α → List Name
  | nil => []
  | leaf key _ rest => key :: names rest
  | node key _ rest => key :: names rest

def slots : Layout α → List (Name × Slot α)
  | nil => []
  | leaf key value rest => (key, .leaf value) :: slots rest
  | node key ms rest => (key, .inner ms) :: slots rest

def values : Layout α → List α
  | nil => []
  | leaf _ value rest => value :: values rest
  | node _ ms rest => values ms ++ values rest

def paths : Layout α → List ResourcePath
  | nil => []
  | leaf key _ rest => .ofVariable key :: paths rest
  | node key ms rest => (paths ms).map (⟨key, ·.names⟩) ++ paths rest

/-- The first outermost slot of a name. -/
def find? (name : Name) : Layout α → Option (Slot α)
  | nil => none
  | leaf key value rest => if key = name then some (.leaf value) else find? name rest
  | node key ms rest => if key = name then some (.inner ms) else find? name rest

def adjust (name : Name) (f : Slot α → Slot α) : Layout α → Layout α
  | nil => nil
  | leaf key value rest =>
    if key = name then cons key (f (.leaf value)) rest else leaf key value (adjust name f rest)
  | node key ms rest =>
    if key = name then cons key (f (.inner ms)) rest else node key ms (adjust name f rest)

/-- Look for a slot at `depth`, by its name and the members taken from it in turn. On failure
the answer is the depth at which a name was not found. -/
def walk : Nat → Layout α → Name → List Name → Except Nat (Slot α)
  | depth, l, name, [] =>
    match l.find? name with
    | none => .error depth
    | some slot => .ok slot
  | depth, l, name, next :: rest =>
    match l.find? name with
    | none => .error depth
    | some slot => walk (depth + 1) slot.members next rest

/-- The slot at a path. The error names the shortest part of the path that names no slot. -/
def slot (l : Layout α) (path : ResourcePath) : Except PlaceError (Slot α) :=
  match walk 1 l path.root path.members with
  | .error depth => .error (.unknown (path.take depth))
  | .ok slot => .ok slot

def leafAt (l : Layout α) (path : ResourcePath) : Except PlaceError α :=
  match l.slot path with
  | .error e => .error e
  | .ok (.leaf value) => .ok value
  | .ok (.inner _) => .error (.notALeaf path)

def adjustAt (f : Slot α → Slot α) : Layout α → Name → List Name → Layout α
  | l, name, [] => l.adjust name f
  | l, name, next :: rest => l.adjust name (Slot.mapMembers (adjustAt f · next rest))

/-- Change the value of every leaf at or below a path, if it names a slot. -/
def modify (l : Layout α) (path : ResourcePath) (f : α → α) : Layout α :=
  adjustAt (Slot.map f) l path.root path.members

theorem adjust_eq_self_of_find? {l : Layout α} {name : Name} {f : Slot α → Slot α}
    (h : ∀ slot, l.find? name = some slot → f slot = slot) : l.adjust name f = l := by
  induction l with
  | nil => rfl
  | leaf key value rest ih =>
    by_cases hk : key = name
    · have hf := h (.leaf value) (by simp [find?, hk])
      simp [adjust, hk, hf, cons]
    · simp [adjust, hk, ih (by simpa [find?, hk] using h)]
  | node key ms rest _ ih =>
    by_cases hk : key = name
    · have hf := h (.inner ms) (by simp [find?, hk])
      simp [adjust, hk, hf, cons]
    · simp [adjust, hk, ih (by simpa [find?, hk] using h)]

theorem adjustAt_eq_self_of_walk {f : Slot α → Slot α} {rest : List Name} {l : Layout α}
    {name : Name} {depth n : Nat} (h : walk depth l name rest = .error n) :
    adjustAt f l name rest = l := by
  induction rest generalizing l name depth with
  | nil =>
    refine adjust_eq_self_of_find? fun slot hs => ?_
    simp [walk, hs] at h
  | cons next rest ih =>
    refine adjust_eq_self_of_find? fun slot hs => ?_
    have hw : walk (depth + 1) slot.members next rest = .error n := by simpa [walk, hs] using h
    cases slot with
    | leaf value => rfl
    | inner ms => exact congrArg Slot.inner (ih hw)

theorem modify_eq_self_of_slot {l : Layout α} {path : ResourcePath} {e : PlaceError}
    (h : l.slot path = .error e) (f : α → α) : l.modify path f = l := by
  rw [slot] at h
  split at h
  · next hw => exact adjustAt_eq_self_of_walk hw
  · cases h

def update (l : Layout α) (path : ResourcePath) (f : α → α) : Except PlaceError (Layout α) :=
  match l.slot path with
  | .error e => .error e
  | .ok _ => .ok (l.modify path f)

def setLeaf (l : Layout α) (path : ResourcePath) (value : α) : Except PlaceError (Layout α) :=
  match l.leafAt path with
  | .error e => .error e
  | .ok _ => .ok (l.modify path fun _ => value)

/-- Combine two layouts slot by slot in order, under the names of the first. A slot without
partner is dropped, and a leaf against a structure keeps the first. -/
def zipWith (f : α → α → α) : Layout α → Layout α → Layout α
  | leaf key v rest, leaf _ w rest' => leaf key (f v w) (zipWith f rest rest')
  | leaf key v rest, node _ _ rest' => leaf key v (zipWith f rest rest')
  | node key ms rest, leaf _ _ rest' => node key ms (zipWith f rest rest')
  | node key ms rest, node _ ns rest' => node key (zipWith f ms ns) (zipWith f rest rest')
  | nil, _ => nil
  | _, nil => nil

/-- Put the branch of a slot before its rows: a corner for the last slot, a tee for others. -/
def branchRows (isLast : Bool) : List String → List String
  | [] => []
  | first :: rest =>
    let (head, bar) := if isLast then ("└", " ") else ("├", "│")
    (head ++ first) :: rest.map (bar ++ ·)

def isNil : Layout α → Bool
  | nil => true
  | _ => false

def rows (text : α → String) : Layout α → List String
  | nil => []
  | leaf key value rest => branchRows rest.isNil [key ++ ": " ++ text value] ++ rows text rest
  | node key ms rest => branchRows rest.isNil (key :: rows text ms) ++ rows text rest

def render (text : α → String) (l : Layout α) : String := "\n".intercalate (l.rows text)

end Layout

end Reversible
