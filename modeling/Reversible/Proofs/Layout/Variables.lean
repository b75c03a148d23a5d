import Reversible.Layout.Expansion
import Reversible.Proofs.Layout.Leaves
import Reversible.Proofs.Order.NameMap

/-! # Leaves and their variables

Each leaf that a path leads to is a leaf of the variable that the path starts from. The layout of
an environment has the environment's variables as outermost slots, so a leaf is a leaf of one
variable only. A change of values at a path is seen at the leaves that it is a prefix of.
-/

namespace Reversible

def Slot.leaf? {α : Type} : Slot α → Option α
  | .leaf value => some value
  | .inner _ => none

theorem Slot.leaf?_map {α β : Type} (f : α → β) (slot : Slot α) :
    (slot.map f).leaf? = slot.leaf?.map f := by
  cases slot <;> rfl

theorem Slot.members_map {α β : Type} (f : α → β) (slot : Slot α) :
    (slot.map f).members = slot.members.map f := by
  cases slot <;> rfl

namespace Layout

variable {α β : Type} {l : Layout α} {name : Name} {path : ResourcePath} {k : Nat}

theorem exists_find?_iff : (∃ slot, l.find? name = some slot) ↔ name ∈ l.names := by
  induction l with
  | nil => simp [find?, names]
  | leaf key value rest ih =>
    by_cases hk : key = name
    · simp [find?, names, hk]
    · simp [find?, names, hk, ih, Ne.symm hk]
  | node key ms rest _ ih =>
    by_cases hk : key = name
    · simp [find?, names, hk]
    · simp [find?, names, hk, ih, Ne.symm hk]

@[simp] theorem names_cons (key : Name) (slot : Slot α) (rest : Layout α) :
    (cons key slot rest).names = key :: rest.names := by
  cases slot <;> rfl

theorem slot_ofVariable_iff {slot : Slot α} :
    l.slot (.ofVariable name) = .ok slot ↔ l.find? name = some slot := by
  rw [slot_eq_ok_iff, ResourcePath.ofVariable, walk]
  split <;> simp_all

theorem leavesAt_subset_variable (h : k ∈ l.leavesAt path) :
    k ∈ l.leavesAt (.ofVariable path.root) := by
  rw [leavesAt] at h
  split at h
  · simp at h
  · next slot hs =>
    obtain ⟨root, members⟩ := path
    rw [slot_eq_ok_iff] at hs
    cases members with
    | nil =>
      rw [leavesAt, ResourcePath.ofVariable, slot_eq_ok_iff.mpr hs]
      exact h
    | cons next rest =>
      rw [walk] at hs
      split at hs
      · cases hs
      · next top ht =>
        rw [leavesAt, slot_ofVariable_iff.mpr ht]
        obtain ⟨pre, post, hv, -⟩ := walk_split hs
        have hm : k ∈ top.members.values := by simp [hv, h]
        cases top with
        | leaf v => simp [Slot.members, values] at hm
        | inner ms => exact hm

theorem mem_values_of_find? {slot : Slot α} (h : l.find? name = some slot) {v : α}
    (hv : v ∈ slot.values) : v ∈ l.values := by
  obtain ⟨pre, post, hl, -⟩ := find?_split h
  simp [hl, hv]

theorem not_mem_of_find?_of_ne {other : Name} {s t : Slot α} (hn : l.values.Nodup)
    (hs : l.find? name = some s) (ht : l.find? other = some t) (hne : name ≠ other) {v : α}
    (hv : v ∈ s.values) : v ∉ t.values := by
  induction l with
  | nil => simp [find?] at hs
  | leaf key w rest ih =>
    obtain ⟨hw, hn⟩ := List.nodup_cons.mp hn
    by_cases hk : key = name
    · obtain rfl : Slot.leaf w = s := by simpa [find?, hk] using hs
      obtain rfl := List.mem_singleton.mp hv
      have ht' : rest.find? other = some t := by simpa [find?, hk, hne] using ht
      exact fun hv' => hw (mem_values_of_find? ht' hv')
    · have hs' : rest.find? name = some s := by simpa [find?, hk] using hs
      by_cases ho : key = other
      · obtain rfl : Slot.leaf w = t := by simpa [find?, ho] using ht
        rintro hv'
        obtain rfl := List.mem_singleton.mp hv'
        exact hw (mem_values_of_find? hs' hv)
      · exact ih hn hs' (by simpa [find?, ho] using ht)
  | node key ms rest _ ih =>
    obtain ⟨-, hn, hd⟩ := List.nodup_append.mp hn
    by_cases hk : key = name
    · obtain rfl : Slot.inner ms = s := by simpa [find?, hk] using hs
      have ht' : rest.find? other = some t := by simpa [find?, hk, hne] using ht
      exact fun hv' => hd v hv v (mem_values_of_find? ht' hv') rfl
    · have hs' : rest.find? name = some s := by simpa [find?, hk] using hs
      by_cases ho : key = other
      · obtain rfl : Slot.inner ms = t := by simpa [find?, ho] using ht
        exact fun hv' => hd v hv' v (mem_values_of_find? hs' hv) rfl
      · exact ih hn hs' (by simpa [find?, ho] using ht)

theorem variable_unique {other : Name} (h : k ∈ l.leavesAt (.ofVariable name))
    (h' : k ∈ l.leavesAt (.ofVariable other)) : name = other := by
  rw [leavesAt] at h h'
  cases hs : (l.numberFrom 0).slot (.ofVariable name) with
  | error e => simp [hs] at h
  | ok s =>
    cases ht : (l.numberFrom 0).slot (.ofVariable other) with
    | error e => simp [ht] at h'
    | ok t =>
      rw [hs] at h
      rw [ht] at h'
      by_contra hne
      have hn : (l.numberFrom 0).values.Nodup := by
        rw [values_numberFrom]
        exact List.nodup_range'
      exact not_mem_of_find?_of_ne hn (slot_ofVariable_iff.mp hs) (slot_ofVariable_iff.mp ht)
        hne h h'

section Address

theorem leavesAt_of_leafAt (h : (l.numberFrom 0).leafAt path = .ok k) : l.leavesAt path = [k] := by
  rw [leafAt] at h
  split at h
  · cases h
  · next v hs =>
    obtain rfl := Except.ok.inj h
    rw [leavesAt, hs]
    rfl
  · cases h

theorem mem_values_of_leafAt {v : α} (h : l.leafAt path = .ok v) : v ∈ l.values := by
  rw [leafAt] at h
  split at h
  · cases h
  · next w hs =>
    obtain rfl := Except.ok.inj h
    obtain ⟨k, -, hk⟩ := (mem_values_slot hs).mp (List.mem_singleton.mpr rfl)
    exact List.mem_of_getElem? hk
  · cases h

theorem leafAt_eq_of_shape {m : Layout β} (hm : m.shape = l.shape) {v : β}
    (h : (l.numberFrom 0).leafAt path = .ok k) (hv : m.values[k]? = some v) :
    m.leafAt path = .ok v := by
  have hk := leavesAt_of_leafAt h
  have hc := slot_congr (hm.trans (shape_numberFrom 0 l).symm) path
  rw [leafAt] at h
  split at h
  · cases h
  · next w hs =>
    rw [hs] at hc
    cases hms : m.slot path with
    | error e => simp [hms, Except.map] at hc
    | ok slot =>
      cases slot with
      | inner ms => simp [hms, Except.map, Slot.map] at hc
      | leaf v' =>
        obtain ⟨k', hk', hv'⟩ := (mem_values_slot hms).mp (List.mem_singleton.mpr rfl)
        rw [leavesAt_congr hm, hk, List.mem_singleton] at hk'
        rw [hk', hv] at hv'
        rw [leafAt, hms, Option.some.inj hv']
  · cases h

theorem mem_paths_of_find? {slot : Slot α} (h : l.find? name = some slot) :
    (∀ v, slot = .leaf v → .ofVariable name ∈ l.paths) ∧
      ∀ p ∈ slot.members.paths, (⟨name, p.names⟩ : ResourcePath) ∈ l.paths := by
  induction l with
  | nil => simp [find?] at h
  | leaf key w rest ih =>
    by_cases hk : key = name
    · obtain rfl : Slot.leaf w = slot := by simpa [find?, hk] using h
      simp [paths, hk, Slot.members]
    · obtain ⟨h₁, h₂⟩ := ih (by simpa [find?, hk] using h)
      constructor
      · intro v hv
        exact List.mem_cons_of_mem _ (h₁ v hv)
      · intro p hp
        exact List.mem_cons_of_mem _ (h₂ p hp)
  | node key ms rest _ ih =>
    by_cases hk : key = name
    · obtain rfl : Slot.inner ms = slot := by simpa [find?, hk] using h
      constructor
      · intro v hv
        cases hv
      · intro p hp
        exact List.mem_append_left _ (List.mem_map.mpr ⟨p, hp, by rw [hk]⟩)
    · obtain ⟨h₁, h₂⟩ := ih (by simpa [find?, hk] using h)
      constructor
      · intro v hv
        exact List.mem_append_right _ (h₁ v hv)
      · intro p hp
        exact List.mem_append_right _ (h₂ p hp)

theorem mem_paths_of_walk {rest : List Name} {depth : Nat} {v : α}
    (h : walk depth l name rest = .ok (.leaf v)) : ⟨name, rest⟩ ∈ l.paths := by
  induction rest generalizing l name depth with
  | nil =>
    cases hf : l.find? name with
    | none => simp [walk, hf] at h
    | some slot => exact (mem_paths_of_find? hf).1 v (by simpa [walk, hf] using h)
  | cons next rest ih =>
    cases hf : l.find? name with
    | none => simp [walk, hf] at h
    | some slot =>
      have hw : walk (depth + 1) slot.members next rest = .ok (.leaf v) := by
        simpa [walk, hf] using h
      exact (mem_paths_of_find? hf).2 _ (ih hw)

theorem mem_paths_of_leafAt {v : α} (h : l.leafAt path = .ok v) : path ∈ l.paths := by
  rw [leafAt] at h
  split at h
  · cases h
  · next hs => exact mem_paths_of_walk (slot_eq_ok_iff.mp hs)
  · cases h

theorem mem_paths_of_shape {m : Layout β} (hm : m.shape = l.shape)
    (h : (l.numberFrom 0).leafAt path = .ok k) : path ∈ m.paths := by
  have hmem : k ∈ m.leavesAt path := by
    rw [leavesAt_congr hm, leavesAt_of_leafAt h]
    exact List.mem_singleton.mpr rfl
  have hleaf := leafAt_eq_of_shape hm h (List.getElem?_eq_getElem (lt_of_mem_leavesAt hmem))
  exact mem_paths_of_leafAt hleaf

theorem find?_cons (key : Name) (slot : Slot α) (rest : Layout α) (name : Name) :
    (cons key slot rest).find? name = if key = name then some slot else rest.find? name := by
  cases slot <;> rfl

theorem find?_adjust (l : Layout α) (f : Slot α → Slot α) (name other : Name) :
    (l.adjust name f).find? other =
      if other = name then (l.find? name).map f else l.find? other := by
  induction l with
  | nil => simp [adjust, find?]
  | leaf key value rest ih =>
    by_cases hk : key = name
    · by_cases ho : other = name
      · simp [adjust, find?, find?_cons, hk, ho]
      · simp [adjust, find?, find?_cons, hk, ho, Ne.symm ho]
    · by_cases ho : key = other
      · simp [adjust, find?, ho, show other ≠ name from ho ▸ hk]
      · simp [adjust, find?, hk, ho, ih]
  | node key ms rest _ ih =>
    by_cases hk : key = name
    · by_cases ho : other = name
      · simp [adjust, find?, find?_cons, hk, ho]
      · simp [adjust, find?, find?_cons, hk, ho, Ne.symm ho]
    · by_cases ho : key = other
      · simp [adjust, find?, ho, show other ≠ name from ho ▸ hk]
      · simp [adjust, find?, hk, ho, ih]

theorem walk_adjust_of_ne {f : Slot α → Slot α} {other : Name} (hne : other ≠ name) (depth : Nat)
    (rest : List Name) : walk depth (l.adjust name f) other rest = walk depth l other rest := by
  cases rest <;> rw [walk, walk, find?_adjust, if_neg hne]

theorem walk_adjustAt_of_ne {f : Slot α → Slot α} {other : Name} (hne : other ≠ name) (depth : Nat)
    (rest rest' : List Name) :
    walk depth (adjustAt f l name rest) other rest' = walk depth l other rest' := by
  cases rest <;> exact walk_adjust_of_ne hne depth rest'

theorem walk_adjustAt_self (f : Slot α → Slot α) (depth : Nat) (l : Layout α) (name : Name)
    (rest : List Name) :
    walk depth (adjustAt f l name rest) name rest = (walk depth l name rest).map f := by
  induction rest generalizing l name depth with
  | nil => cases hf : l.find? name <;> simp [adjustAt, walk, find?_adjust, hf, Except.map]
  | cons next rest ih =>
    cases hf : l.find? name with
    | none => simp [adjustAt, walk, find?_adjust, hf, Except.map]
    | some slot =>
      cases slot with
      | leaf v =>
        cases rest <;>
          simp [adjustAt, walk, find?_adjust, hf, Slot.mapMembers, Slot.members, find?, Except.map]
      | inner ms =>
        simpa [adjustAt, walk, find?_adjust, hf, Slot.mapMembers, Slot.members] using
          ih (depth + 1) ms next

theorem leaf?_walk_map (f : α → β) (depth : Nat) (l : Layout α) (name : Name) (rest : List Name) :
    (walk depth (l.map f) name rest).map Slot.leaf? =
      (walk depth l name rest).map fun slot => slot.leaf?.map f := by
  rw [walk_map]
  cases walk depth l name rest with
  | error n => rfl
  | ok slot => exact congrArg Except.ok (slot.leaf?_map f)

theorem leaf?_walk_adjustAt (f : α → α) (depth : Nat) (l : Layout α) (name other : Name)
    (rest rest' : List Name) :
    (walk depth (adjustAt (Slot.map f) l name rest) other rest').map Slot.leaf? =
      (walk depth l other rest').map fun slot =>
        if name :: rest <+: other :: rest' then slot.leaf?.map f else slot.leaf? := by
  induction rest generalizing l depth name other rest' with
  | nil =>
    by_cases ho : other = name
    · subst ho
      cases hf : l.find? other with
      | none => cases rest' <;> simp [adjustAt, walk, find?_adjust, hf, Except.map]
      | some slot =>
        cases rest' with
        | nil => simp [adjustAt, walk, find?_adjust, hf, Except.map, Slot.leaf?_map]
        | cons next' rest' =>
          simpa [adjustAt, walk, find?_adjust, hf, Slot.members_map] using
            leaf?_walk_map f (depth + 1) slot.members next' rest'
    · rw [walk_adjustAt_of_ne ho]
      simp [Ne.symm ho]
  | cons next rest ih =>
    by_cases ho : other = name
    · subst ho
      cases hf : l.find? other with
      | none => cases rest' <;> simp [adjustAt, walk, find?_adjust, hf, Except.map]
      | some slot =>
        cases rest' with
        | nil =>
          cases slot <;>
            simp [adjustAt, walk, find?_adjust, hf, Except.map, Slot.mapMembers, Slot.leaf?]
        | cons next' rest' =>
          cases slot with
          | leaf v =>
            cases rest' <;>
              simp [adjustAt, walk, find?_adjust, hf, Except.map, Slot.mapMembers, Slot.members,
                find?]
          | inner ms =>
            simpa [adjustAt, walk, find?_adjust, hf, Slot.mapMembers, Slot.members] using
              ih (depth + 1) ms next next' rest'
    · rw [walk_adjustAt_of_ne ho]
      simp [Ne.symm ho]

theorem leafAt_eq_ok_iff {v : α} :
    l.leafAt path = .ok v ↔ walk 1 l path.root path.members = .ok (.leaf v) := by
  rw [← slot_eq_ok_iff, leafAt]
  split <;> simp_all

theorem leafAt_eq_match (l : Layout α) (path : ResourcePath) :
    l.leafAt path =
      match (walk 1 l path.root path.members).map Slot.leaf? with
      | .error depth => .error (.unknown (path.take depth))
      | .ok none => .error (.notALeaf path)
      | .ok (some v) => .ok v := by
  rw [leafAt, slot]
  rcases walk 1 l path.root path.members with e | (v | ms) <;> rfl

/-- Changing the values at or below a path changes the leaves that it is a prefix of, and no
others. -/
theorem leafAt_modify (l : Layout α) (path : ResourcePath) (f : α → α) (other : ResourcePath) :
    (l.modify path f).leafAt other =
      if path.names <+: other.names then (l.leafAt other).map f else l.leafAt other := by
  rw [leafAt_eq_match, modify, leaf?_walk_adjustAt, leafAt_eq_match, ResourcePath.names,
    ResourcePath.names]
  rcases walk 1 l other.root other.members with e | (v | ms) <;> split_ifs <;> rfl

theorem exists_inner_of_walk {depth : Nat} {next : Name} {rest : List Name} {v : α}
    (h : walk depth l name (next :: rest) = .ok (.leaf v)) :
    ∃ ms, l.find? name = some (.inner ms) ∧ walk (depth + 1) ms next rest = .ok (.leaf v) := by
  rw [walk] at h
  split at h
  · cases h
  · next slot hf =>
    cases slot with
    | leaf w => cases rest <;> simp [walk, Slot.members, find?] at h
    | inner ms => exact ⟨ms, hf, h⟩

theorem eq_nil_of_walk_append {depth : Nat} {rest more : List Name} {v w : α}
    (h : walk depth l name rest = .ok (.leaf v))
    (h' : walk depth l name (rest ++ more) = .ok (.leaf w)) : more = [] := by
  induction rest generalizing l name depth with
  | nil =>
    cases more with
    | nil => rfl
    | cons next more =>
      obtain ⟨ms, hf, -⟩ := exists_inner_of_walk h'
      simp [walk, hf] at h
  | cons next rest ih =>
    obtain ⟨ms, hf, hw⟩ := exists_inner_of_walk h
    obtain ⟨ms', hf', hw'⟩ := exists_inner_of_walk h'
    obtain ⟨⟩ := hf.symm.trans hf'
    exact ih hw hw'

theorem eq_of_prefix_of_leafAt {other : ResourcePath} {v w : α} (h : l.leafAt path = .ok v)
    (h' : l.leafAt other = .ok w) (hp : path.names <+: other.names) : other = path := by
  obtain ⟨root, members⟩ := path
  obtain ⟨root', members'⟩ := other
  obtain ⟨more, hm⟩ := hp
  obtain ⟨rfl, rfl⟩ := List.cons.inj hm
  rw [leafAt_eq_ok_iff] at h h'
  obtain rfl := eq_nil_of_walk_append h h'
  exact congrArg (ResourcePath.mk root) (List.append_nil members)

theorem leafAt_modify_leaf {f : α → α} {v : α} (h : l.leafAt path = .ok v)
    (other : ResourcePath) :
    (l.modify path f).leafAt other = if other = path then .ok (f v) else l.leafAt other := by
  rw [leafAt_modify]
  by_cases ho : other = path
  · rw [if_pos ho, ho, if_pos List.prefix_rfl, h]
    rfl
  · rw [if_neg ho, ite_eq_right_iff]
    intro hp
    cases h' : l.leafAt other with
    | error e => rfl
    | ok w => exact absurd (eq_of_prefix_of_leafAt h h' hp) ho

theorem leafAt_map (f : α → β) (l : Layout α) (path : ResourcePath) :
    (l.map f).leafAt path = (l.leafAt path).map f := by
  rw [leafAt, leafAt, slot_map]
  rcases l.slot path with e | (v | ms) <;> rfl

/-- The slots of each structure have different names. -/
def DistinctMembers : Layout α → Prop
  | nil => True
  | leaf _ _ rest => rest.DistinctMembers
  | node _ ms rest => ms.names.Nodup ∧ ms.DistinctMembers ∧ rest.DistinctMembers

theorem root_mem_names (h : path ∈ l.paths) : path.root ∈ l.names := by
  induction l with
  | nil => cases h
  | leaf key value rest ih =>
    rcases List.mem_cons.mp h with rfl | h
    · exact List.mem_cons_self
    · exact List.mem_cons_of_mem key (ih h)
  | node key ms rest _ ih =>
    rcases List.mem_append.mp h with h | h
    · obtain ⟨inner, -, rfl⟩ := List.mem_map.mp h
      exact List.mem_cons_self
    · exact List.mem_cons_of_mem key (ih h)

theorem nodup_paths (hn : l.names.Nodup) (h : l.DistinctMembers) : l.paths.Nodup := by
  induction l with
  | nil => exact List.nodup_nil
  | leaf key value rest ih =>
    obtain ⟨hkey, hn⟩ := List.nodup_cons.mp hn
    exact List.nodup_cons.mpr ⟨fun hp => hkey (root_mem_names hp), ih hn h⟩
  | node key ms rest ihm ih =>
    obtain ⟨hkey, hn⟩ := List.nodup_cons.mp hn
    obtain ⟨hmn, hm, hr⟩ := h
    have hinner : (ms.paths.map fun p => (⟨key, p.names⟩ : ResourcePath)).Nodup := by
      refine List.pairwise_map.mpr ((ihm hmn hm).imp fun {p q} hpq heq => hpq ?_)
      cases p
      cases q
      simpa [ResourcePath.names] using heq
    refine List.nodup_append.mpr ⟨hinner, ih hn hr, ?_⟩
    rintro p hp _ hp' rfl
    obtain ⟨inner, -, rfl⟩ := List.mem_map.mp hp
    exact hkey (root_mem_names hp')

theorem names_numberFrom (n : Nat) (l : Layout α) : (l.numberFrom n).names = l.names := by
  induction l generalizing n with
  | nil => rfl
  | leaf key value rest ih => exact congrArg (key :: ·) (ih _)
  | node key ms rest _ ih => exact congrArg (key :: ·) (ih _)

theorem DistinctMembers.numberFrom (h : l.DistinctMembers) (n : Nat) :
    (l.numberFrom n).DistinctMembers := by
  induction l generalizing n with
  | nil => trivial
  | leaf key value rest ih => exact ih h _
  | node key ms rest ihm ih =>
    obtain ⟨hn, hm, hr⟩ := h
    refine ⟨?_, ihm hm n, ih hr _⟩
    rwa [names_numberFrom]

theorem walk_eq_of_find? {m : Layout α} {depth : Nat} {rest : List Name} {slot : Slot α}
    (hf : m.find? name = l.find? name) (h : walk depth l name rest = .ok slot) :
    walk depth m name rest = .ok slot := by
  cases rest <;> rwa [walk, hf]

theorem mem_names_of_walk {depth : Nat} {rest : List Name} {slot : Slot α}
    (h : walk depth l name rest = .ok slot) : name ∈ l.names := by
  rw [← exists_find?_iff]
  cases hf : l.find? name with
  | none => cases rest <;> simp [walk, hf] at h
  | some s => exact ⟨s, rfl⟩

theorem length_paths (l : Layout α) : l.paths.length = l.values.length := by
  induction l with
  | nil => rfl
  | leaf key value rest ih => simp [paths, values, ih]
  | node key ms rest ihm ih => simp [paths, values, ihm, ih]

theorem walk_of_mem_zip (hn : l.names.Nodup) (h : l.DistinctMembers) {v : α}
    (hv : (path, v) ∈ l.paths.zip l.values) (depth : Nat) :
    walk depth l path.root path.members = .ok (.leaf v) := by
  induction l generalizing path depth with
  | nil => cases hv
  | leaf key w rest ih =>
    obtain ⟨hkey, hn⟩ := List.nodup_cons.mp hn
    rcases List.mem_cons.mp hv with hv | hv
    · obtain ⟨rfl, rfl⟩ := Prod.mk.inj hv
      simp [ResourcePath.ofVariable, walk, find?]
    · have hw := ih hn h hv depth
      have hne : key ≠ path.root := fun he => hkey (he ▸ mem_names_of_walk hw)
      exact walk_eq_of_find? (by simp [find?, hne]) hw
  | node key ms rest ihm ih =>
    obtain ⟨hkey, hn⟩ := List.nodup_cons.mp hn
    obtain ⟨hmn, hm, hr⟩ := h
    rw [paths, values, List.zip_append (by simp [length_paths]), List.mem_append,
      List.zip_map_left] at hv
    rcases hv with hv | hv
    · obtain ⟨⟨inner, w⟩, hi, heq⟩ := List.mem_map.mp hv
      obtain ⟨rfl, rfl⟩ := Prod.mk.inj heq
      simpa [ResourcePath.names, walk, find?, Slot.members] using ihm hmn hm hi (depth + 1)
    · have hw := ih hn hr hv depth
      have hne : key ≠ path.root := fun he => hkey (he ▸ mem_names_of_walk hw)
      exact walk_eq_of_find? (by simp [find?, hne]) hw

theorem exists_walk_of_mem_values (hn : l.names.Nodup) (h : l.DistinctMembers) {v : α}
    (hv : v ∈ l.values) (depth : Nat) :
    ∃ name rest, walk depth l name rest = .ok (.leaf v) := by
  rw [← List.map_snd_zip (Nat.le_of_eq l.length_paths.symm)] at hv
  obtain ⟨⟨path, w⟩, hw, rfl⟩ := List.mem_map.mp hv
  exact ⟨path.root, path.members, walk_of_mem_zip hn h hw depth⟩

/-- If no two siblings share a name, every leaf has a path of its own. -/
theorem exists_leafAt_eq (hn : l.names.Nodup) (h : l.DistinctMembers) (hk : k < l.values.length) :
    ∃ path, (l.numberFrom 0).leafAt path = .ok k := by
  have hv : k ∈ (l.numberFrom 0).values := by
    rw [values_numberFrom, List.mem_range'_1]
    omega
  obtain ⟨name, rest, hw⟩ := exists_walk_of_mem_values (by rwa [names_numberFrom])
    (h.numberFrom 0) hv 1
  refine ⟨⟨name, rest⟩, ?_⟩
  rw [leafAt, slot_eq_ok_iff.mpr hw]

end Address

section Expansion

variable {unfold : Name → Except TypeError (Slot Ty)} {members : List (Name × Ty)}
  {slot : Slot Ty} {l : Layout Ty}

theorem expandWith_record_eq_ok_iff :
    expandWith unfold (.record members) = .ok slot ↔
      ∃ l, expandMembersWith unfold members = .ok l ∧ slot = .inner l := by
  rw [expandWith]
  cases expandMembersWith unfold members with
  | error e => simp [bind, Except.bind]
  | ok l => simp [bind, Except.bind, pure, Except.pure, eq_comm]

theorem expandMembersWith_cons_eq_ok_iff {m : Name × Ty} :
    expandMembersWith unfold (m :: members) = .ok l ↔
      ∃ slot rest, expandWith unfold m.2 = .ok slot ∧
        expandMembersWith unfold members = .ok rest ∧ l = .cons m.1 slot rest := by
  rw [expandMembersWith]
  cases expandWith unfold m.2 with
  | error e => simp [bind, Except.bind]
  | ok slot =>
    cases expandMembersWith unfold members with
    | error e => simp [bind, Except.bind]
    | ok rest => simp [bind, Except.bind, pure, Except.pure, eq_comm]

theorem names_expandMembersWith (h : expandMembersWith unfold members = .ok l) :
    l.names = members.map (·.1) := by
  induction members generalizing l with
  | nil =>
    rw [expandMembersWith] at h
    obtain rfl := Except.ok.inj h
    rfl
  | cons m members ih =>
    obtain ⟨slot, rest, -, hr, rfl⟩ := expandMembersWith_cons_eq_ok_iff.mp h
    rw [names_cons, ih hr, List.map_cons]

end Expansion

end Layout

theorem Environment.names_layout {env : Environment} {l : Layout Ty} (h : env.layout = .ok l) :
    l.names = env.vars.keys :=
  Layout.names_expandMembersWith h

theorem Environment.exists_slot_iff {env : Environment} {l : Layout Ty} (h : env.layout = .ok l)
    {name : Name} : (∃ slot, l.slot (.ofVariable name) = .ok slot) ↔ env.contains name := by
  simp only [Layout.slot_ofVariable_iff, Layout.exists_find?_iff, names_layout h,
    NameMap.mem_keys_iff]
  rfl

end Reversible
