import Reversible.Proofs.Layout.Leaves

/-! # Mapping the values of a layout

A map of values leaves the paths of a layout alone. If it turns one change of values into another,
it does so for changes at a path, and if it turns one combination of values into another, it does so
slot by slot.
-/

namespace Reversible

namespace Layout

variable {α β γ : Type}

theorem map_map (f : α → β) (h : β → γ) (l : Layout α) :
    (l.map f).map h = l.map fun v => h (f v) := by
  induction l with
  | nil => rfl
  | leaf key value rest ih => exact congrArg (leaf key (h (f value))) ih
  | node key ms rest ihm ih => exact congrArg₂ (node key) ihm ih

theorem paths_map (f : α → β) (l : Layout α) : (l.map f).paths = l.paths := by
  induction l with
  | nil => rfl
  | leaf key value rest ih => rw [map, paths, paths, ih]
  | node key ms rest ihm ih => rw [map, paths, paths, ihm, ih]

theorem paths_congr {l : Layout α} {m : Layout β} (h : l.shape = m.shape) : l.paths = m.paths := by
  rw [← paths_map (fun _ => ()) l, ← paths_map (fun _ => ()) m]
  exact congrArg paths h

theorem map_cons (h : α → β) (key : Name) (slot : Slot α) (rest : Layout α) :
    (cons key slot rest).map h = cons key (slot.map h) (rest.map h) := by
  cases slot <;> rfl

section Change

variable {h : α → β} {f : Slot α → Slot α} {f' : Slot β → Slot β}

theorem map_adjust (hf : ∀ slot, (f slot).map h = f' (slot.map h)) (name : Name) (l : Layout α) :
    (l.adjust name f).map h = (l.map h).adjust name f' := by
  induction l with
  | nil => rfl
  | leaf key value rest ih =>
    by_cases hk : key = name
    · rw [adjust, if_pos hk, map_cons, hf, map, adjust, if_pos hk, Slot.map]
    · rw [adjust, if_neg hk, map, ih, map, adjust, if_neg hk]
  | node key ms rest _ ih =>
    by_cases hk : key = name
    · rw [adjust, if_pos hk, map_cons, hf, map, adjust, if_pos hk, Slot.map]
    · rw [adjust, if_neg hk, map, ih, map, adjust, if_neg hk]

theorem map_adjustAt (hf : ∀ slot, (f slot).map h = f' (slot.map h)) (l : Layout α) (name : Name)
    (rest : List Name) : (adjustAt f l name rest).map h = adjustAt f' (l.map h) name rest := by
  induction rest generalizing l name with
  | nil => exact map_adjust hf name l
  | cons next rest ih =>
    refine map_adjust (fun slot => ?_) name l
    cases slot with
    | leaf value => rfl
    | inner ms => exact congrArg Slot.inner (ih ms next)

end Change

theorem map_modify {h : α → β} {f : α → α} {f' : β → β} (hf : ∀ v, h (f v) = f' (h v))
    (l : Layout α) (path : ResourcePath) :
    (l.modify path f).map h = (l.map h).modify path f' := by
  refine map_adjustAt (fun slot => ?_) l path.root path.members
  cases slot with
  | leaf value => exact congrArg Slot.leaf (hf value)
  | inner ms => simp [Slot.map, map_map, hf]

theorem map_zipWith {h : α → β} {f : α → α → α} {f' : β → β → β}
    (hf : ∀ v w, h (f v w) = f' (h v) (h w)) (l m : Layout α) :
    (zipWith f l m).map h = zipWith f' (l.map h) (m.map h) := by
  induction l generalizing m with
  | nil => simp [zipWith, map]
  | leaf key value rest ih => cases m <;> simp [zipWith, map, ih, hf]
  | node key ms rest ihm ih => cases m <;> simp [zipWith, map, ihm, ih]

end Layout

end Reversible
