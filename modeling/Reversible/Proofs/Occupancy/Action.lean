import Reversible.Occupancy.Checks
import Reversible.Proofs.Layout.Order
import Reversible.Proofs.Occupancy.Order

/-! # One action on a snapshot

What a snapshot says of a leaf is whether some way initializes it and whether some way finalizes
it. As long as no state lacks its causes, the checks on an action ask exactly for that: a slot may
be finalized or read if some leaf of it is initialized and none is finalized, and initialized if
no leaf of it is initialized.
-/

namespace Reversible

namespace Layout

variable {α : Type}

theorem map_id (l : Layout α) : l.map id = l := by
  induction l with
  | nil => rfl
  | leaf key value rest ih => rw [map, ih, id]
  | node key ms rest ihm ih => rw [map, ihm, ih]

theorem adjustAt_id (rest : List Name) (l : Layout α) (name : Name) :
    adjustAt (Slot.map id) l name rest = l := by
  induction rest generalizing l name with
  | nil =>
    refine adjust_eq_self_of_find? fun slot _ => ?_
    cases slot with
    | leaf value => rfl
    | inner ms => exact congrArg Slot.inner ms.map_id
  | cons next rest ih =>
    refine adjust_eq_self_of_find? fun slot _ => ?_
    cases slot with
    | leaf value => rfl
    | inner ms => exact congrArg Slot.inner (ih ms next)

theorem modify_id (l : Layout α) (path : ResourcePath) : l.modify path id = l :=
  adjustAt_id path.members l path.root

end Layout

namespace Occupancy

variable {a b o : Occupancy}

/-- On some way the slot is initialized. -/
def MayHold (o : Occupancy) : Prop := ∃ c, c ∈ o.initializers

/-- On some way the slot is finalized. -/
def MayLack (o : Occupancy) : Prop := ∃ c, c ∈ o.finalizers

/-- Every state but `unknown` has causes. -/
def HasCauses : Occupancy → Prop
  | unknown => True
  | initialized s => ∃ c, c ∈ s
  | finalized s => ∃ c, c ∈ s
  | conflict s t => (∃ c, c ∈ s) ∧ ∃ c, c ∈ t

@[simp] theorem mayHold_meet : (a.meet b).MayHold ↔ a.MayHold ∨ b.MayHold := by
  simp [MayHold, exists_or]

@[simp] theorem mayLack_meet : (a.meet b).MayLack ↔ a.MayLack ∨ b.MayLack := by
  simp [MayLack, exists_or]

theorem MayHold.mono (h : a ≤ b) (ha : a.MayHold) : b.MayHold :=
  ha.imp fun c hc => initializers_subset h c hc

theorem MayLack.mono (h : a ≤ b) (ha : a.MayLack) : b.MayLack :=
  ha.imp fun c hc => finalizers_subset h c hc

theorem HasCauses.meet (ha : a.HasCauses) (hb : b.HasCauses) : (a.meet b).HasCauses := by
  cases a <;> cases b <;>
    simp_all [HasCauses, Occupancy.meet, initializers, finalizers, exists_or]

theorem isInitialized_iff (h : o.HasCauses) : o.isInitialized ↔ o.MayHold ∧ ¬ o.MayLack := by
  cases o <;> simp_all [HasCauses, isInitialized, MayHold, MayLack, initializers, finalizers]

theorem isFinalized_iff (h : o.HasCauses) : o.isFinalized ↔ o.MayLack ∧ ¬ o.MayHold := by
  cases o <;> simp_all [HasCauses, isFinalized, MayHold, MayLack, initializers, finalizers]

theorem isUnknown_iff (h : o.HasCauses) : o.isUnknown ↔ ¬ o.MayLack ∧ ¬ o.MayHold := by
  cases o <;> simp_all [HasCauses, isUnknown, MayHold, MayLack, initializers, finalizers]

theorem isConflict_iff (h : o.HasCauses) : o.isConflict ↔ o.MayHold ∧ o.MayLack := by
  cases o <;> simp_all [HasCauses, isConflict, MayHold, MayLack, initializers, finalizers]

section Synthesis

variable {os : List Occupancy}

theorem mem_foldl_union {f : Occupancy → Causes} {s : Causes} {c : Span} :
    c ∈ os.foldl (fun s o => s ∪ f o) s ↔ c ∈ s ∨ ∃ o ∈ os, c ∈ f o := by
  induction os generalizing s with
  | nil => simp
  | cons o os ih => simp [ih, or_assoc]

theorem causes_ofCauses (s t : Causes) :
    (ofCauses s t).HasCauses ∧ ((ofCauses s t).MayHold ↔ ∃ c, c ∈ s) ∧
      ((ofCauses s t).MayLack ↔ ∃ c, c ∈ t) := by
  cases hs : s.isEmpty <;> cases ht : t.isEmpty <;> simp only [ofCauses, hs, ht] <;>
    simp_all [SortedSet.isEmpty_iff, SortedSet.isEmpty_eq_false_iff, HasCauses, MayHold, MayLack,
      initializers, finalizers]

theorem hasCauses_synthesize (os : List Occupancy) : (synthesize os).HasCauses :=
  (causes_ofCauses _ _).1

theorem mayHold_synthesize : (synthesize os).MayHold ↔ ∃ o ∈ os, o.MayHold := by
  rw [synthesize, (causes_ofCauses _ _).2.1]
  simp only [mem_foldl_union, SortedSet.not_mem_empty, false_or, MayHold]
  constructor
  · rintro ⟨c, o, ho, hc⟩
    exact ⟨o, ho, c, hc⟩
  · rintro ⟨o, ho, c, hc⟩
    exact ⟨c, o, ho, hc⟩

theorem mayLack_synthesize : (synthesize os).MayLack ↔ ∃ o ∈ os, o.MayLack := by
  rw [synthesize, (causes_ofCauses _ _).2.2]
  simp only [mem_foldl_union, SortedSet.not_mem_empty, false_or, MayLack]
  constructor
  · rintro ⟨c, o, ho, hc⟩
    exact ⟨o, ho, c, hc⟩
  · rintro ⟨o, ho, c, hc⟩
    exact ⟨c, o, ho, hc⟩

end Synthesis

end Occupancy

namespace Snapshot

variable {s t : Snapshot} {path : ResourcePath} {k : Nat}

def MayHold (s : Snapshot) (k : Nat) : Prop := ∃ o, s.values[k]? = some o ∧ o.MayHold

def MayLack (s : Snapshot) (k : Nat) : Prop := ∃ o, s.values[k]? = some o ∧ o.MayLack

/-- Some of the leaves are initialized and none finalized. -/
def Held (s : Snapshot) (leaves : List Nat) : Prop :=
  (∃ k ∈ leaves, s.MayHold k) ∧ ∀ k ∈ leaves, ¬ s.MayLack k

/-- Some of the leaves are finalized and none initialized. -/
def Released (s : Snapshot) (leaves : List Nat) : Prop :=
  (∃ k ∈ leaves, s.MayLack k) ∧ ∀ k ∈ leaves, ¬ s.MayHold k

def HasCauses (s : Snapshot) : Prop := ∀ o ∈ s.values, o.HasCauses

section Meet

variable (h : Layout.shape s = Layout.shape t)
include h

theorem exists_of_getElem?_meet {o : Occupancy} (ho : (s.meet t).values[k]? = some o) :
    ∃ a b, s.values[k]? = some a ∧ t.values[k]? = some b ∧ o = a.meet b := by
  rw [Snapshot.meet, Layout.values_zipWith _ h] at ho
  obtain ⟨a, b, ha, hb, he⟩ := List.getElem?_zipWith_eq_some.mp ho
  exact ⟨a, b, ha, hb, he.symm⟩

theorem HasCauses.meet (hs : s.HasCauses) (ht : t.HasCauses) : (s.meet t).HasCauses := by
  intro o ho
  obtain ⟨k, hk⟩ := List.mem_iff_getElem?.mp ho
  obtain ⟨a, b, ha, hb, rfl⟩ := exists_of_getElem?_meet h hk
  exact (hs a (List.mem_of_getElem? ha)).meet (ht b (List.mem_of_getElem? hb))

theorem mayHold_or_of_meet (hk : (s.meet t).MayHold k) : s.MayHold k ∨ t.MayHold k := by
  obtain ⟨o, ho, hm⟩ := hk
  obtain ⟨a, b, ha, hb, rfl⟩ := exists_of_getElem?_meet h ho
  exact (Occupancy.mayHold_meet.mp hm).imp (⟨a, ha, ·⟩) (⟨b, hb, ·⟩)

theorem mayLack_or_of_meet (hk : (s.meet t).MayLack k) : s.MayLack k ∨ t.MayLack k := by
  obtain ⟨o, ho, hm⟩ := hk
  obtain ⟨a, b, ha, hb, rfl⟩ := exists_of_getElem?_meet h ho
  exact (Occupancy.mayLack_meet.mp hm).imp (⟨a, ha, ·⟩) (⟨b, hb, ·⟩)

end Meet

/-- A path is read from its leaves: some way initializes or finalizes it if one does so for a
leaf. -/
theorem read_leaves {state : Occupancy} (hs : s.HasCauses) (h : s.read path = .ok state) :
    state.HasCauses ∧ (state.MayHold ↔ ∃ k ∈ s.leavesAt path, s.MayHold k) ∧
      (state.MayLack ↔ ∃ k ∈ s.leavesAt path, s.MayLack k) := by
  have hleaves : ∀ {slot : Slot Occupancy}, Layout.slot s path = .ok slot →
      ∀ P : Occupancy → Prop, (∃ o ∈ slot.values, P o) ↔
        ∃ k ∈ s.leavesAt path, ∃ o, s.values[k]? = some o ∧ P o := by
    intro slot hslot P
    simp only [Layout.mem_values_slot hslot]
    constructor
    · rintro ⟨o, ⟨k, hk, ho⟩, hP⟩
      exact ⟨k, hk, o, ho, hP⟩
    · rintro ⟨k, hk, o, ho, hP⟩
      exact ⟨o, ⟨k, hk, ho⟩, hP⟩
  rw [read] at h
  split at h
  · cases h
  · next o hslot =>
    obtain rfl := Except.ok.inj h
    refine ⟨?_, ?_, ?_⟩
    · obtain ⟨k, -, ho⟩ := (Layout.mem_values_slot hslot).mp (List.mem_singleton.mpr rfl)
      exact hs _ (List.mem_of_getElem? ho)
    · simpa [Snapshot.MayHold] using hleaves hslot Occupancy.MayHold
    · simpa [Snapshot.MayLack] using hleaves hslot Occupancy.MayLack
  · next ms hslot =>
    obtain rfl := Except.ok.inj h
    refine ⟨Occupancy.hasCauses_synthesize _, ?_, ?_⟩
    · rw [Occupancy.mayHold_synthesize]
      exact hleaves hslot Occupancy.MayHold
    · rw [Occupancy.mayLack_synthesize]
      exact hleaves hslot Occupancy.MayLack

theorem isInitialized_read_iff {state : Occupancy} (hs : s.HasCauses)
    (h : s.read path = .ok state) : state.isInitialized ↔ s.Held (s.leavesAt path) := by
  obtain ⟨hc, hh, hl⟩ := read_leaves hs h
  rw [Occupancy.isInitialized_iff hc, hh, hl, Held]
  simp only [not_exists, not_and]

theorem isFinalized_read_iff {state : Occupancy} (hs : s.HasCauses) (h : s.read path = .ok state) :
    state.isFinalized ↔ s.Released (s.leavesAt path) := by
  obtain ⟨hc, hh, hl⟩ := read_leaves hs h
  rw [Occupancy.isFinalized_iff hc, hh, hl, Released]
  simp only [not_exists, not_and]

theorem isFinalized_or_isUnknown_read_iff {state : Occupancy} (hs : s.HasCauses)
    (h : s.read path = .ok state) :
    state.isFinalized || state.isUnknown ↔ ∀ k ∈ s.leavesAt path, ¬ s.MayHold k := by
  obtain ⟨hc, hh, -⟩ := read_leaves hs h
  rw [Bool.or_eq_true, Occupancy.isFinalized_iff hc, Occupancy.isUnknown_iff hc, ← or_and_right,
    hh]
  simp only [Classical.em, true_and, not_exists, not_and]

theorem exists_read {slot : Slot Occupancy} (h : Layout.slot s path = .ok slot) :
    ∃ state, s.read path = .ok state := by
  rw [read, h]
  cases slot with
  | leaf o => exact ⟨o, rfl⟩
  | inner ms => exact ⟨.synthesize ms.values, rfl⟩

end Snapshot

namespace SlotAction

variable {s : Snapshot} {a : SlotAction} {path : ResourcePath} {span : Span} {o : Occupancy}
  {k : Nat}

/-- What an action does to the leaves at or below its path. -/
def change : SlotAction → Occupancy → Occupancy
  | finalizing _ span => (·.overwrite (.finalizedAt span))
  | reading _ _ => id
  | initializing _ span => (·.overwrite (.initializedAt span))

theorem apply_eq_modify (s : Snapshot) (a : SlotAction) : a.apply s = s.modify a.path a.change := by
  cases a with
  | reading path span => exact (Layout.modify_id s path).symm
  | _ => rfl

theorem change_le {b : Occupancy} (a : SlotAction) (h : o ≤ b) : a.change o ≤ a.change b := by
  cases a with
  | finalizing path span => exact Occupancy.overwrite_finalized_le h _
  | reading path span => exact h
  | initializing path span => exact Occupancy.overwrite_initialized_le h _

theorem hasCauses_change (a : SlotAction) (h : o.HasCauses) : (a.change o).HasCauses := by
  cases a <;> cases o <;>
    simp_all [change, Occupancy.overwrite, Occupancy.initializedAt, Occupancy.finalizedAt,
      Occupancy.HasCauses, Occupancy.initializers, Occupancy.finalizers]

@[simp] theorem shape_apply (s : Snapshot) (a : SlotAction) :
    (a.apply s).shape = Layout.shape s := by
  rw [apply_eq_modify, Layout.shape_modify]

theorem getElem?_values_apply (s : Snapshot) (a : SlotAction) (k : Nat) :
    (a.apply s).values[k]? =
      if k ∈ s.leavesAt a.path then (s.values[k]?).map a.change else s.values[k]? := by
  rw [apply_eq_modify, Layout.getElem?_values_modify]

theorem hasCauses_apply (a : SlotAction) (hs : s.HasCauses) :
    Snapshot.HasCauses (a.apply s) := by
  intro o ho
  obtain ⟨k, hk⟩ := List.mem_iff_getElem?.mp ho
  rw [getElem?_values_apply] at hk
  split at hk
  · obtain ⟨o', ho', rfl⟩ := Option.map_eq_some_iff.mp hk
    exact hasCauses_change a (hs o' (List.mem_of_getElem? ho'))
  · exact hs o (List.mem_of_getElem? hk)

theorem getElem?_values_apply_of_not_mem (hk : k ∉ s.leavesAt a.path) :
    (a.apply s).values[k]? = s.values[k]? := by
  rw [getElem?_values_apply, if_neg hk]

theorem exists_getElem?_of_mem (hk : k ∈ s.leavesAt a.path) :
    ∃ o, s.values[k]? = some o ∧ (a.apply s).values[k]? = some (a.change o) := by
  have hlt := Layout.lt_of_mem_leavesAt hk
  refine ⟨s.values[k], List.getElem?_eq_getElem hlt, ?_⟩
  rw [getElem?_values_apply, if_pos hk, List.getElem?_eq_getElem hlt, Option.map_some]

theorem mayHold_apply_initializing (hk : k ∈ s.leavesAt path) :
    Snapshot.MayHold ((initializing path span).apply s) k := by
  obtain ⟨o, -, ho⟩ := exists_getElem?_of_mem (a := initializing path span) hk
  exact ⟨_, ho, (Occupancy.MayHold.mono (Occupancy.le_overwrite_initialized o _)
    ⟨span, SortedSet.mem_singleton.mpr rfl⟩)⟩

theorem mayLack_apply_finalizing (hk : k ∈ s.leavesAt path) :
    Snapshot.MayLack ((finalizing path span).apply s) k := by
  obtain ⟨o, -, ho⟩ := exists_getElem?_of_mem (a := finalizing path span) hk
  exact ⟨_, ho, (Occupancy.MayLack.mono (Occupancy.le_overwrite_finalized o _)
    ⟨span, SortedSet.mem_singleton.mpr rfl⟩)⟩

theorem mayLack_of_apply_initializing
    (h : Snapshot.MayLack ((initializing path span).apply s) k) : s.MayLack k := by
  by_cases hk : k ∈ s.leavesAt path
  · obtain ⟨o, ho, ho'⟩ := exists_getElem?_of_mem (a := initializing path span) hk
    obtain ⟨o', hv, hl⟩ := h
    obtain rfl := Option.some.inj (ho'.symm.trans hv)
    refine ⟨o, ho, ?_⟩
    cases o <;>
      simp_all [change, Occupancy.overwrite, Occupancy.initializedAt, Occupancy.MayLack,
        Occupancy.finalizers]
  · rwa [Snapshot.MayLack, getElem?_values_apply_of_not_mem (a := initializing path span) hk] at h

theorem mayHold_apply_initializing_iff :
    Snapshot.MayHold ((initializing path span).apply s) k ↔ s.MayHold k ∨ k ∈ s.leavesAt path := by
  by_cases hk : k ∈ s.leavesAt path
  · exact iff_of_true (mayHold_apply_initializing hk) (.inr hk)
  · rw [Snapshot.MayHold, getElem?_values_apply_of_not_mem (a := initializing path span) hk]
    exact (or_iff_left hk).symm

theorem not_mayLack_apply_initializing (hs : s.HasCauses) (hk : k ∈ s.leavesAt path)
    (h : ¬ s.MayHold k) : ¬ Snapshot.MayLack ((initializing path span).apply s) k := by
  obtain ⟨o, ho, ho'⟩ := exists_getElem?_of_mem (a := initializing path span) hk
  have hc := hs o (List.mem_of_getElem? ho)
  have hh : ¬ o.MayHold := fun hh => h ⟨o, ho, hh⟩
  rintro ⟨o', hv, hl⟩
  obtain rfl := Option.some.inj (ho'.symm.trans hv)
  cases o <;>
    simp_all [change, Occupancy.overwrite, Occupancy.initializedAt, Occupancy.MayHold,
      Occupancy.MayLack, Occupancy.HasCauses, Occupancy.initializers, Occupancy.finalizers]

theorem not_mayHold_apply_finalizing (hs : s.HasCauses) (hk : k ∈ s.leavesAt path)
    (h : ¬ s.MayLack k) : ¬ Snapshot.MayHold ((finalizing path span).apply s) k := by
  obtain ⟨o, ho, ho'⟩ := exists_getElem?_of_mem (a := finalizing path span) hk
  have hc := hs o (List.mem_of_getElem? ho)
  have hh : ¬ o.MayLack := fun hh => h ⟨o, ho, hh⟩
  rintro ⟨o', hv, hl⟩
  obtain rfl := Option.some.inj (ho'.symm.trans hv)
  cases o <;>
    simp_all [change, Occupancy.overwrite, Occupancy.finalizedAt, Occupancy.MayHold,
      Occupancy.MayLack, Occupancy.HasCauses, Occupancy.initializers, Occupancy.finalizers]

/-- The state of its slot allows an action. -/
def Fits (s : Snapshot) : SlotAction → Prop
  | finalizing path _ => s.Held (s.leavesAt path)
  | reading path _ => s.Held (s.leavesAt path)
  | initializing path _ => ∀ k ∈ s.leavesAt path, ¬ s.MayHold k

theorem ite_none_eq_none_iff {c : Prop} [Decidable c] {f : OccupancyFault} :
    (if c then none else some f) = none ↔ c := by
  simp

theorem fault?_of_slot_error {e : PlaceError} (h : Layout.slot s a.path = .error e) :
    a.fault? s = none := by
  rw [fault?, Snapshot.read, h]

/-- Nothing is wrong with an action if and only if the state of its slot allows it. -/
theorem fault?_eq_none_iff {slot : Slot Occupancy} (hs : s.HasCauses)
    (h : Layout.slot s a.path = .ok slot) : a.fault? s = none ↔ a.Fits s := by
  obtain ⟨state, hr⟩ := Snapshot.exists_read h
  rw [fault?, hr]
  cases a with
  | finalizing path span =>
    exact ite_none_eq_none_iff.trans (Snapshot.isInitialized_read_iff hs hr)
  | reading path span =>
    exact ite_none_eq_none_iff.trans (Snapshot.isInitialized_read_iff hs hr)
  | initializing path span =>
    exact ite_none_eq_none_iff.trans (Snapshot.isFinalized_or_isUnknown_read_iff hs hr)

theorem fits_of_fault? (hs : s.HasCauses) (hk : k ∈ s.leavesAt a.path) (h : a.fault? s = none) :
    a.Fits s := by
  cases hslot : Layout.slot s a.path with
  | error e => simp [Layout.leavesAt_of_slot_error hslot] at hk
  | ok slot => exact (fault?_eq_none_iff hs hslot).mp h

section Run

variable {acts : List SlotAction}

theorem replay_cons_eq_nil_iff :
    replay s (a :: acts) = [] ↔ a.fault? s = none ∧ replay (a.apply s) acts = [] := by
  rw [replay, List.append_eq_nil_iff, Option.toList_eq_nil_iff, applyChecked]
  refine and_congr_right fun h => ?_
  rw [h]

@[simp] theorem shape_foldl_apply (acts : List SlotAction) (s : Snapshot) :
    (acts.foldl apply s).shape = Layout.shape s := by
  induction acts generalizing s with
  | nil => rfl
  | cons a acts ih => rw [List.foldl_cons, ih, shape_apply]

theorem hasCauses_foldl_apply (acts : List SlotAction) (hs : s.HasCauses) :
    Snapshot.HasCauses (acts.foldl apply s) := by
  induction acts generalizing s with
  | nil => exact hs
  | cons a acts ih => exact ih (hasCauses_apply a hs)

end Run

end SlotAction

end Reversible
