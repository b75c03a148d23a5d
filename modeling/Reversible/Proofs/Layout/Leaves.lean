import Mathlib.Data.List.Basic
import Reversible.Layout.Basic

/-! # The leaves of a layout

The leaves of a layout are numbered in order. The leaves at or below a path are an interval of
these numbers, and a change at the path changes the values of exactly these leaves. Which leaves
they are depends only on the shape of a layout, not on the values in it.
-/

namespace Reversible

variable {α β : Type}

def Slot.values : Slot α → List α
  | leaf value => [value]
  | inner ms => ms.values

namespace Layout

/-- Put its number at every leaf, counting from `n`. -/
def numberFrom : Nat → Layout α → Layout Nat
  | _, nil => nil
  | n, leaf key _ rest => leaf key n (numberFrom (n + 1) rest)
  | n, node key ms rest => node key (numberFrom n ms) (numberFrom (n + ms.values.length) rest)

/-- The numbers of the leaves at or below a path; none if it names no slot. -/
def leavesAt (l : Layout α) (path : ResourcePath) : List Nat :=
  match (l.numberFrom 0).slot path with
  | .error _ => []
  | .ok slot => slot.values

def shape (l : Layout α) : Layout Unit := l.map fun _ => ()

end Layout

def Slot.numberFrom (n : Nat) : Slot α → Slot Nat
  | leaf _ => leaf n
  | inner ms => inner (ms.numberFrom n)

namespace Layout

@[simp] theorem values_map (f : α → β) (l : Layout α) : (l.map f).values = l.values.map f := by
  induction l with
  | nil => rfl
  | leaf key value rest ih => simp [map, values, ih]
  | node key ms rest ihm ih => simp [map, values, ihm, ih]

@[simp] theorem values_cons (key : Name) (s : Slot α) (rest : Layout α) :
    (cons key s rest).values = s.values ++ rest.values := by
  cases s <;> rfl

theorem values_numberFrom (n : Nat) (l : Layout α) :
    (l.numberFrom n).values = List.range' n l.values.length := by
  induction l generalizing n with
  | nil => rfl
  | leaf key value rest ih => simp [numberFrom, values, ih, List.range'_succ]
  | node key ms rest ihm ih =>
    simp only [numberFrom, values, ihm, ih, List.length_append]
    exact List.range'_append_1

end Layout

namespace Slot

@[simp] theorem values_leaf (v : α) : (leaf v).values = [v] := rfl

@[simp] theorem values_inner (ms : Layout α) : (inner ms).values = ms.values := rfl

@[simp] theorem values_map (f : α → β) (s : Slot α) : (s.map f).values = s.values.map f := by
  cases s with
  | leaf value => rfl
  | inner ms => exact ms.values_map f

theorem values_numberFrom (n : Nat) (s : Slot α) :
    (s.numberFrom n).values = List.range' n s.values.length := by
  cases s with
  | leaf value => rfl
  | inner ms => exact ms.values_numberFrom n

end Slot

namespace Layout

theorem find?_map (f : α → β) (l : Layout α) (name : Name) :
    (l.map f).find? name = (l.find? name).map (Slot.map f) := by
  induction l with
  | nil => rfl
  | leaf key value rest ih =>
    by_cases hk : key = name
    · simp [map, find?, hk, Slot.map]
    · simp [map, find?, hk, ih]
  | node key ms rest _ ih =>
    by_cases hk : key = name
    · simp [map, find?, hk, Slot.map]
    · simp [map, find?, hk, ih]

theorem walk_map (f : α → β) (depth : Nat) (l : Layout α) (name : Name) (rest : List Name) :
    walk depth (l.map f) name rest = (walk depth l name rest).map (Slot.map f) := by
  induction rest generalizing depth l name with
  | nil =>
    rw [walk, walk, find?_map]
    cases l.find? name <;> rfl
  | cons next rest ih =>
    rw [walk, walk, find?_map]
    cases l.find? name with
    | none => rfl
    | some s => cases s with
      | leaf value => exact ih (depth + 1) nil next
      | inner ms => exact ih (depth + 1) ms next

theorem slot_map (f : α → β) (l : Layout α) (path : ResourcePath) :
    (l.map f).slot path = (l.slot path).map (Slot.map f) := by
  rw [slot, slot, walk_map]
  cases walk 1 l path.root path.members <;> rfl

@[simp] theorem shape_map (f : α → β) (l : Layout α) : (l.map f).shape = l.shape := by
  induction l with
  | nil => rfl
  | leaf key value rest ih => exact congrArg (leaf key ()) ih
  | node key ms rest ihm ih => exact congrArg₂ (node key) ihm ih

@[simp] theorem shape_numberFrom (n : Nat) (l : Layout α) : (l.numberFrom n).shape = l.shape := by
  induction l generalizing n with
  | nil => rfl
  | leaf key value rest ih => exact congrArg (leaf key ()) (ih (n + 1))
  | node key ms rest ihm ih => exact congrArg₂ (node key) (ihm n) (ih _)

theorem numberFrom_shape (n : Nat) (l : Layout α) : l.shape.numberFrom n = l.numberFrom n := by
  induction l generalizing n with
  | nil => rfl
  | leaf key value rest ih => exact congrArg (leaf key n) (ih (n + 1))
  | node key ms rest ihm ih =>
    have hl : ms.shape.values.length = ms.values.length := by simp [shape]
    rw [shape, map, numberFrom, numberFrom]
    exact congrArg₂ (node key) (ihm n) (hl ▸ ih _)

@[simp] theorem leavesAt_shape (l : Layout α) (path : ResourcePath) :
    l.shape.leavesAt path = l.leavesAt path := by
  rw [leavesAt, leavesAt, numberFrom_shape]

theorem leavesAt_congr {l : Layout α} {m : Layout β} (h : l.shape = m.shape)
    (path : ResourcePath) : l.leavesAt path = m.leavesAt path := by
  rw [← leavesAt_shape l, h, leavesAt_shape]

theorem length_values_congr {l : Layout α} {m : Layout β} (h : l.shape = m.shape) :
    l.values.length = m.values.length := by
  simpa [shape] using congrArg (fun x => x.values.length) h

theorem exists_getElem?_of_shape {l : Layout α} {m : Layout β} (h : l.shape = m.shape) {k : Nat}
    {v : α} (hv : l.values[k]? = some v) : ∃ w, m.values[k]? = some w := by
  have hk : k < m.values.length := by
    rw [← length_values_congr h]
    exact (List.getElem?_eq_some_iff.mp hv).1
  exact ⟨_, List.getElem?_eq_getElem hk⟩

theorem slot_congr {l : Layout α} {m : Layout β} (h : l.shape = m.shape) (path : ResourcePath) :
    (l.slot path).map (Slot.map fun _ => ()) = (m.slot path).map (Slot.map fun _ => ()) := by
  rw [← slot_map, ← slot_map]
  exact congrArg (·.slot path) h

theorem slot_error_congr {l : Layout α} {m : Layout β} (h : l.shape = m.shape)
    {path : ResourcePath} {e : PlaceError} (hl : l.slot path = .error e) :
    m.slot path = .error e := by
  have hc := slot_congr h path
  rw [hl] at hc
  cases hm : m.slot path with
  | error e' => simpa [hm, Except.map] using hc.symm
  | ok s => simp [hm, Except.map] at hc

theorem exists_slot_congr {l : Layout α} {m : Layout β} (h : l.shape = m.shape)
    {path : ResourcePath} : (∃ s, l.slot path = .ok s) ↔ ∃ s, m.slot path = .ok s := by
  cases hl : l.slot path with
  | error e => simp [slot_error_congr h hl]
  | ok s =>
    cases hm : m.slot path with
    | error e => simp [slot_error_congr h.symm hm] at hl
    | ok t => simp

theorem shape_cons (key : Name) (s : Slot α) (rest : Layout α) :
    (cons key s rest).shape = cons key (s.map fun _ => ()) rest.shape := by
  cases s <;> rfl

theorem shape_adjust {f : Slot α → Slot α}
    (hf : ∀ s, (f s).map (fun _ => ()) = s.map fun _ => ()) (name : Name) (l : Layout α) :
    (l.adjust name f).shape = l.shape := by
  induction l with
  | nil => rfl
  | leaf key value rest ih =>
    rw [adjust]
    split
    · rw [shape_cons, hf]
      rfl
    · exact congrArg (leaf key ()) ih
  | node key ms rest _ ih =>
    rw [adjust]
    split
    · rw [shape_cons, hf]
      rfl
    · exact congrArg (node key ms.shape) ih

theorem shape_adjustAt {f : Slot α → Slot α}
    (hf : ∀ s, (f s).map (fun _ => ()) = s.map fun _ => ()) (name : Name) (rest : List Name)
    (l : Layout α) : (adjustAt f l name rest).shape = l.shape := by
  induction rest generalizing l name with
  | nil => exact shape_adjust hf name l
  | cons next rest ih =>
    refine shape_adjust (fun s => ?_) name l
    cases s with
    | leaf value => rfl
    | inner ms => exact congrArg Slot.inner (ih next ms)

@[simp] theorem shape_modify (l : Layout α) (path : ResourcePath) (f : α → α) :
    (l.modify path f).shape = l.shape := by
  refine shape_adjustAt (fun s => ?_) path.root path.members l
  cases s with
  | leaf value => rfl
  | inner ms => exact congrArg Slot.inner (shape_map f ms)

theorem eq_nil_of_shape {m : Layout β} (h : (nil : Layout α).shape = m.shape) : m = nil := by
  cases m <;> simp [shape, map] at h
  rfl

theorem eq_leaf_of_shape {key : Name} {v : α} {rest : Layout α} {m : Layout β}
    (h : (leaf key v rest).shape = m.shape) :
    ∃ w rest', m = leaf key w rest' ∧ rest.shape = rest'.shape := by
  cases m <;> simp [shape, map] at h
  case leaf key' w rest' => exact ⟨w, rest', by rw [h.1], h.2⟩

theorem eq_node_of_shape {key : Name} {ms rest : Layout α} {m : Layout β}
    (h : (node key ms rest).shape = m.shape) :
    ∃ ns rest', m = node key ns rest' ∧ ms.shape = ns.shape ∧ rest.shape = rest'.shape := by
  cases m <;> simp [shape, map] at h
  case node key' ns rest' => exact ⟨ns, rest', by rw [h.1], h.2⟩

theorem shape_zipWith (f : α → α → α) {l m : Layout α} (h : l.shape = m.shape) :
    (zipWith f l m).shape = l.shape := by
  induction l generalizing m with
  | nil => rfl
  | leaf key v rest ih =>
    obtain ⟨w, rest', rfl, hr⟩ := eq_leaf_of_shape h
    exact congrArg (leaf key ()) (ih hr)
  | node key ms rest ihm ih =>
    obtain ⟨ns, rest', rfl, hm, hr⟩ := eq_node_of_shape h
    exact congrArg₂ (node key) (ihm hm) (ih hr)

theorem values_zipWith (f : α → α → α) {l m : Layout α} (h : l.shape = m.shape) :
    (zipWith f l m).values = List.zipWith f l.values m.values := by
  induction l generalizing m with
  | nil => rfl
  | leaf key v rest ih =>
    obtain ⟨w, rest', rfl, hr⟩ := eq_leaf_of_shape h
    exact congrArg (f v w :: ·) (ih hr)
  | node key ms rest ihm ih =>
    obtain ⟨ns, rest', rfl, hm, hr⟩ := eq_node_of_shape h
    rw [zipWith, values, values, values, ihm hm, ih hr]
    exact (List.zipWith_append (length_values_congr hm)).symm

theorem find?_split {l : Layout α} {name : Name} {slot : Slot α} (h : l.find? name = some slot) :
    ∃ pre post, l.values = pre ++ slot.values ++ post ∧
      (∀ f, (l.adjust name f).values = pre ++ (f slot).values ++ post) ∧
      ∀ n, (l.numberFrom n).find? name = some (slot.numberFrom (n + pre.length)) := by
  induction l with
  | nil => simp [find?] at h
  | leaf key value rest ih =>
    by_cases hk : key = name
    · obtain rfl : Slot.leaf value = slot := by simpa [find?, hk] using h
      exact ⟨[], rest.values, rfl, fun f => by simp [adjust, hk],
        fun n => by simp [numberFrom, find?, hk, Slot.numberFrom]⟩
    · obtain ⟨pre, post, hv, ha, hn⟩ := ih (by simpa [find?, hk] using h)
      refine ⟨value :: pre, post, by simp [values, hv], fun f => ?_, fun n => ?_⟩
      · simp [adjust, hk, values, ha]
      · rw [numberFrom, find?, if_neg hk, hn, List.length_cons, Nat.add_right_comm, Nat.add_assoc]
  | node key ms rest _ ih =>
    by_cases hk : key = name
    · obtain rfl : Slot.inner ms = slot := by simpa [find?, hk] using h
      exact ⟨[], rest.values, rfl, fun f => by simp [adjust, hk],
        fun n => by simp [numberFrom, find?, hk, Slot.numberFrom]⟩
    · obtain ⟨pre, post, hv, ha, hn⟩ := ih (by simpa [find?, hk] using h)
      refine ⟨ms.values ++ pre, post, by simp [values, hv], fun f => ?_, fun n => ?_⟩
      · simp [adjust, hk, values, ha]
      · rw [numberFrom, find?, if_neg hk, hn, List.length_append, Nat.add_assoc]

theorem walk_split {rest : List Name} {l : Layout α} {name : Name} {depth : Nat} {slot : Slot α}
    (h : walk depth l name rest = .ok slot) :
    ∃ pre post, l.values = pre ++ slot.values ++ post ∧
      (∀ f, (adjustAt f l name rest).values = pre ++ (f slot).values ++ post) ∧
      ∀ d n, walk d (l.numberFrom n) name rest = .ok (slot.numberFrom (n + pre.length)) := by
  induction rest generalizing l name depth with
  | nil =>
    cases hf : l.find? name with
    | none => simp [walk, hf] at h
    | some s =>
      obtain rfl : s = slot := by simpa [walk, hf] using h
      obtain ⟨pre, post, hv, ha, hn⟩ := find?_split hf
      exact ⟨pre, post, hv, ha, fun d n => by simp [walk, hn]⟩
  | cons next rest ih =>
    cases hf : l.find? name with
    | none => simp [walk, hf] at h
    | some s =>
      have hw : walk (depth + 1) s.members next rest = .ok slot := by simpa [walk, hf] using h
      cases s with
      | leaf value => cases rest <;> simp [walk, Slot.members, find?] at hw
      | inner ms =>
        obtain ⟨pre, post, hv, ha, hn⟩ := find?_split hf
        obtain ⟨pre', post', hv', ha', hn'⟩ := ih (l := ms) hw
        refine ⟨pre ++ pre', post' ++ post, ?_, fun f => ?_, fun d n => ?_⟩
        · rw [hv, Slot.values_inner, hv']
          simp
        · rw [adjustAt, ha]
          simp [Slot.mapMembers, ha']
        · rw [walk, hn]
          simp [Slot.numberFrom, Slot.members, hn', Nat.add_assoc]

theorem slot_eq_ok_iff {l : Layout α} {path : ResourcePath} {s : Slot α} :
    l.slot path = .ok s ↔ walk 1 l path.root path.members = .ok s := by
  rw [slot]
  split <;> simp_all

/-- The leaves at or below a path are an interval, and a change at the path is a change there. -/
theorem slot_split {l : Layout α} {path : ResourcePath} {s : Slot α} (h : l.slot path = .ok s) :
    ∃ pre post, l.values = pre ++ s.values ++ post ∧
      (∀ f, (l.modify path f).values = pre ++ s.values.map f ++ post) ∧
      l.leavesAt path = List.range' pre.length s.values.length := by
  obtain ⟨pre, post, hv, ha, hn⟩ := walk_split (slot_eq_ok_iff.mp h)
  refine ⟨pre, post, hv, fun f => ?_, ?_⟩
  · rw [modify, ha, Slot.values_map]
  · rw [leavesAt, slot_eq_ok_iff.mpr (hn 1 0), Nat.zero_add]
    exact s.values_numberFrom _

theorem leavesAt_of_slot_error {l : Layout α} {path : ResourcePath} {e : PlaceError}
    (h : l.slot path = .error e) : l.leavesAt path = [] := by
  rw [leavesAt, slot_error_congr (shape_numberFrom 0 l).symm h]

theorem getElem?_values_modify (l : Layout α) (path : ResourcePath) (f : α → α) (k : Nat) :
    (l.modify path f).values[k]? =
      if k ∈ l.leavesAt path then (l.values[k]?).map f else l.values[k]? := by
  cases h : l.slot path with
  | error e => simp [modify_eq_self_of_slot h, leavesAt_of_slot_error h]
  | ok s =>
    obtain ⟨pre, post, hv, hm, hb⟩ := slot_split h
    rw [hm, hb, hv]
    simp only [List.mem_range'_1]
    grind

theorem mem_values_slot {l : Layout α} {path : ResourcePath} {s : Slot α} (h : l.slot path = .ok s)
    {v : α} : v ∈ s.values ↔ ∃ k ∈ l.leavesAt path, l.values[k]? = some v := by
  obtain ⟨pre, post, hv, -, hb⟩ := slot_split h
  rw [hb, hv, List.mem_iff_getElem?]
  constructor
  · rintro ⟨i, hi⟩
    have hlt : i < s.values.length := (List.getElem?_eq_some_iff.mp hi).1
    exact ⟨pre.length + i, List.mem_range'_1.mpr ⟨by omega, by omega⟩, by grind⟩
  · rintro ⟨k, hk, hv'⟩
    have hk' := List.mem_range'_1.mp hk
    exact ⟨k - pre.length, by grind⟩

theorem lt_of_mem_leavesAt {l : Layout α} {path : ResourcePath} {k : Nat}
    (h : k ∈ l.leavesAt path) : k < l.values.length := by
  cases hs : l.slot path with
  | error e => simp [leavesAt_of_slot_error hs] at h
  | ok s =>
    obtain ⟨pre, post, hv, -, hb⟩ := slot_split hs
    rw [hb, List.mem_range'_1] at h
    simp only [hv, List.length_append]
    omega

/-- Every structure of the layout has members. -/
def Filled : Layout α → Prop
  | nil => True
  | leaf _ _ rest => rest.Filled
  | node _ ms rest => ms ≠ nil ∧ ms.Filled ∧ rest.Filled

theorem Filled.values_ne_nil {l : Layout α} (h : l.Filled) (hl : l ≠ nil) : l.values ≠ [] := by
  induction l with
  | nil => exact absurd rfl hl
  | leaf key value rest ih => exact List.cons_ne_nil _ _
  | node key ms rest ihm ih => exact List.append_ne_nil_of_left_ne_nil (ihm h.2.1 h.1) _

theorem Filled.find? {l : Layout α} {name : Name} {slot : Slot α} (h : l.Filled)
    (hf : l.find? name = some slot) : slot.members.Filled ∧ slot.values ≠ [] := by
  induction l with
  | nil => cases hf
  | leaf key value rest ih =>
    rw [Layout.find?] at hf
    split at hf
    · obtain rfl := Option.some.inj hf
      exact ⟨trivial, List.cons_ne_nil _ _⟩
    · exact ih h hf
  | node key ms rest ihm ih =>
    rw [Layout.find?] at hf
    split at hf
    · obtain rfl := Option.some.inj hf
      exact ⟨h.2.1, h.2.1.values_ne_nil h.1⟩
    · exact ih h.2.2 hf

theorem Filled.walk {rest : List Name} {l : Layout α} {name : Name} {depth : Nat} {slot : Slot α}
    (h : l.Filled) (hw : walk depth l name rest = .ok slot) : slot.values ≠ [] := by
  induction rest generalizing l name depth with
  | nil =>
    rw [Layout.walk] at hw
    split at hw
    · cases hw
    · next hf =>
      obtain rfl := Except.ok.inj hw
      exact (h.find? hf).2
  | cons next rest ih =>
    rw [Layout.walk] at hw
    split at hw
    · cases hw
    · next hf => exact ih (h.find? hf).1 hw

theorem Filled.exists_mem_leavesAt {l : Layout α} {path : ResourcePath} {slot : Slot α}
    (h : l.Filled) (hs : l.slot path = .ok slot) : ∃ k, k ∈ l.leavesAt path := by
  obtain ⟨v, hv⟩ := List.exists_mem_of_ne_nil _ (h.walk (slot_eq_ok_iff.mp hs))
  obtain ⟨k, hk, -⟩ := (mem_values_slot hs).mp hv
  exact ⟨k, hk⟩

end Layout

end Reversible
