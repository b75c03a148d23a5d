import Reversible.Proofs.Layout.Map
import Reversible.Proofs.Layout.Variables

/-! # Selecting variables

From a layout the slots of some names can be selected. What is done at a path commutes with that if
the path starts at a name that is selected, and cannot be seen in the selection otherwise. A layout
is therefore known from what two complementary selections show of it.
-/

namespace Reversible

namespace Layout

variable {α β : Type} {l m : Layout α} {keep : Name → Bool} {name : Name} {path : ResourcePath}

def select (keep : Name → Bool) : Layout α → Layout α
  | nil => nil
  | leaf key value rest => if keep key then leaf key value (select keep rest) else select keep rest
  | node key ms rest => if keep key then node key ms (select keep rest) else select keep rest

theorem select_cons (keep : Name → Bool) (key : Name) (slot : Slot α) (rest : Layout α) :
    (cons key slot rest).select keep =
      if keep key then cons key slot (rest.select keep) else rest.select keep := by
  cases slot <;> rfl

theorem select_map (f : α → β) (keep : Name → Bool) (l : Layout α) :
    (l.map f).select keep = (l.select keep).map f := by
  induction l with
  | nil => rfl
  | leaf key value rest ih =>
    rw [map, select, select]
    split
    · rw [ih, map]
    · exact ih
  | node key ms rest _ ih =>
    rw [map, select, select]
    split
    · rw [ih, map]
    · exact ih

theorem select_zipWith {f : α → α → α} (h : l.shape = m.shape) :
    (zipWith f l m).select keep = zipWith f (l.select keep) (m.select keep) := by
  induction l generalizing m with
  | nil => rfl
  | leaf key v rest ih =>
    obtain ⟨w, rest', rfl, hr⟩ := eq_leaf_of_shape h
    rw [zipWith, select, select, select, ih hr]
    split <;> rfl
  | node key ms rest _ ih =>
    obtain ⟨ns, rest', rfl, -, hr⟩ := eq_node_of_shape h
    rw [zipWith, select, select, select, ih hr]
    split <;> rfl

theorem eq_of_select (h : l.shape = m.shape) (hkeep : l.select keep = m.select keep)
    (hrest : l.select (fun n => !keep n) = m.select fun n => !keep n) : l = m := by
  induction l generalizing m with
  | nil => exact (eq_nil_of_shape h).symm
  | leaf key v rest ih =>
    obtain ⟨w, rest', rfl, hr⟩ := eq_leaf_of_shape h
    cases hk : keep key <;> simp [select, hk] at hkeep hrest
    · rw [hrest.1, ih hr hkeep hrest.2]
    · rw [hkeep.1, ih hr hkeep.2 hrest]
  | node key ms rest _ ih =>
    obtain ⟨ns, rest', rfl, -, hr⟩ := eq_node_of_shape h
    cases hk : keep key <;> simp [select, hk] at hkeep hrest
    · rw [hrest.1, ih hr hkeep hrest.2]
    · rw [hkeep.1, ih hr hkeep.2 hrest]

theorem find?_select (hk : keep name) : (l.select keep).find? name = l.find? name := by
  induction l with
  | nil => rfl
  | leaf key value rest ih =>
    by_cases hn : key = name
    · simp [select, find?, hn, hk]
    · rw [select, find?, if_neg hn]
      split
      · rw [find?, if_neg hn, ih]
      · exact ih
  | node key ms rest _ ih =>
    by_cases hn : key = name
    · simp [select, find?, hn, hk]
    · rw [select, find?, if_neg hn]
      split
      · rw [find?, if_neg hn, ih]
      · exact ih

theorem slot_select (hk : keep path.root) : (l.select keep).slot path = l.slot path := by
  have hw : walk 1 (l.select keep) path.root path.members = walk 1 l path.root path.members := by
    cases path.members <;> rw [walk, walk, find?_select hk]
  rw [slot, slot, hw]

theorem leafAt_select (hk : keep path.root) : (l.select keep).leafAt path = l.leafAt path := by
  rw [leafAt, leafAt, slot_select hk]

theorem select_adjust (hk : keep name) (f : Slot α → Slot α) (l : Layout α) :
    (l.adjust name f).select keep = (l.select keep).adjust name f := by
  induction l with
  | nil => rfl
  | leaf key value rest ih =>
    by_cases hn : key = name
    · simp [adjust, select, hn, hk, select_cons]
    · rw [adjust, if_neg hn, select, select]
      split
      · rw [adjust, if_neg hn, ih]
      · exact ih
  | node key ms rest _ ih =>
    by_cases hn : key = name
    · simp [adjust, select, hn, hk, select_cons]
    · rw [adjust, if_neg hn, select, select]
      split
      · rw [adjust, if_neg hn, ih]
      · exact ih

theorem select_adjust_of_not (hk : ¬ keep name) (f : Slot α → Slot α) (l : Layout α) :
    (l.adjust name f).select keep = l.select keep := by
  induction l with
  | nil => rfl
  | leaf key value rest ih =>
    by_cases hn : key = name
    · simp [adjust, select, hn, hk, select_cons]
    · rw [adjust, if_neg hn, select, select, ih]
  | node key ms rest _ ih =>
    by_cases hn : key = name
    · simp [adjust, select, hn, hk, select_cons]
    · rw [adjust, if_neg hn, select, select, ih]

theorem select_modify (hk : keep path.root) (f : α → α) (l : Layout α) :
    (l.modify path f).select keep = (l.select keep).modify path f := by
  unfold modify
  cases path.members <;> exact select_adjust hk _ l

theorem select_modify_of_not (hk : ¬ keep path.root) (f : α → α) (l : Layout α) :
    (l.modify path f).select keep = l.select keep := by
  unfold modify
  cases path.members <;> exact select_adjust_of_not hk _ l

theorem paths_select (keep : Name → Bool) (l : Layout α) :
    (l.select keep).paths = l.paths.filter (keep ·.root) := by
  induction l with
  | nil => rfl
  | leaf key value rest ih =>
    cases hk : keep key <;> simp [select, paths, hk, ih, ResourcePath.ofVariable]
  | node key ms rest _ ih =>
    cases hk : keep key <;>
      simp [select, paths, hk, ih, List.filter_map, Function.comp_def]

section Expansion

variable {unfold : Name → Except TypeError (Slot Ty)} {members : List (Name × Ty)}

/-- Members that can be laid out may be left out before or after the others are laid out. -/
theorem expandMembersWith_filter
    (h : ∀ m ∈ members, ¬ keep m.1 → ∃ slot, expandWith unfold m.2 = .ok slot) :
    expandMembersWith unfold (members.filter (keep ·.1)) =
      (expandMembersWith unfold members).map (select keep) := by
  induction members with
  | nil => rfl
  | cons m rest ih =>
    obtain ⟨key, ty⟩ := m
    obtain ⟨hm, hrest⟩ := List.forall_mem_cons.mp h
    have ih := ih hrest
    by_cases hk : keep key
    · rw [List.filter_cons, if_pos hk, expandMembersWith, expandMembersWith, ih]
      cases expandWith unfold ty with
      | error e => rfl
      | ok slot =>
        cases expandMembersWith unfold rest with
        | error e => rfl
        | ok l => simp [bind, Except.bind, Except.map, select_cons, hk, pure, Except.pure]
    · obtain ⟨slot, hslot⟩ := hm hk
      rw [List.filter_cons, if_neg hk, ih, expandMembersWith, hslot]
      cases expandMembersWith unfold rest with
      | error e => rfl
      | ok l => simp [bind, Except.bind, Except.map, select_cons, hk, pure, Except.pure]

end Expansion

end Layout

/-- `wide` has the variables of `env` with their types, and further ones that are not among those
in use and can be laid out. -/
structure Environment.Widens (wide env : Environment) (used : List Name) : Prop where
  types_eq : wide.types = env.types
  old : ∀ name ty, env.type? name = some ty → wide.type? name = some ty
  new : ∀ name ty, wide.type? name = some ty → env.type? name = some ty ∨
    name ∉ used ∧ ∃ slot, Layout.ofTy env.types ty = .ok slot

namespace Environment.Widens

variable {wide env : Environment} {used : List Name} {name : Name}

theorem contains_eq (h : wide.Widens env used) (hu : name ∈ used) :
    wide.contains name = env.contains name := by
  cases hw : wide.type? name with
  | none =>
    cases he : env.type? name with
    | none => exact congrArg Option.isSome (hw.trans he.symm)
    | some ty => cases hw.symm.trans (h.old name ty he)
  | some ty =>
    have he := (h.new name ty hw).resolve_right fun hn => hn.1 hu
    exact congrArg Option.isSome (hw.trans he.symm)

theorem filter_entries (h : wide.Widens env used) :
    wide.vars.entries.filter (env.contains ·.1) = env.vars.entries := by
  refine NameMap.entries_eq_of_mem_iff (wide.vars.ascending.filter _) env.vars.ascending ?_
  rintro ⟨name, ty⟩
  rw [List.mem_filter, NameMap.mem_entries_iff, NameMap.mem_entries_iff]
  constructor
  · rintro ⟨hw, he⟩
    obtain ⟨ty', he⟩ := Option.isSome_iff_exists.mp he
    obtain ⟨⟩ := hw.symm.trans (h.old name ty' he)
    exact he
  · exact fun he => ⟨h.old name ty he, Option.isSome_iff_exists.mpr ⟨ty, he⟩⟩

/-- The layout of the smaller environment is selected from that of the larger one. -/
theorem layout_eq (h : wide.Widens env used) :
    env.layout = wide.layout.map (Layout.select env.contains) := by
  rw [Environment.layout, Environment.layout, h.types_eq, ← h.filter_entries]
  refine Layout.expandMembersWith_filter fun m hm hno => ?_
  have hnew := h.new m.1 m.2 (NameMap.mem_entries_iff.mp hm)
  refine (hnew.resolve_left fun he => hno ?_).2
  exact Option.isSome_iff_exists.mpr ⟨m.2, he⟩

end Environment.Widens

theorem Environment.widens_declare {env : Environment} {used : List Name} {name : Name} {ty : Ty}
    {slot : Slot Ty} (hnew : env.type? name = none) (hu : name ∉ used)
    (hty : Layout.ofTy env.types ty = .ok slot) : (env.declare name ty).Widens env used where
  types_eq := rfl
  old other ty' he := by
    have hne : other ≠ name := by
      rintro rfl
      cases hnew.symm.trans he
    exact (NameMap.get?_insert env.vars name other ty).trans ((if_neg hne).trans he)
  new other ty' hw := by
    have hw : (if other = name then some ty else env.type? other) = some ty' :=
      (NameMap.get?_insert env.vars name other ty).symm.trans hw
    split at hw
    · next heq =>
      obtain rfl := Option.some.inj hw
      exact .inr ⟨heq ▸ hu, slot, hty⟩
    · exact .inl hw

end Reversible
