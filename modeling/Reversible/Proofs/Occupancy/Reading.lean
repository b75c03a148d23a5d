import Mathlib.Data.List.Forall2
import Reversible.Proofs.Layout.Addressing
import Reversible.Proofs.Occupancy.Action

/-! # Reading a structure

The state of a structure is put together from the causes below it, so a leaf that is known without
causes would go unseen. Snapshots that are made from the blank one by initializing, finalizing and
joining have no such leaf. In them the state of a structure is the join of the states of its leaves,
and the join of the states of its members.
-/

namespace Reversible

namespace Occupancy

variable {os : List Occupancy}

instance : RightCommutative meet := ⟨fun a b c => sup_right_comm a b c⟩

theorem HasCauses.ofCauses_eq {o : Occupancy} (h : o.HasCauses) :
    ofCauses o.initializers o.finalizers = o := by
  have hempty : (∅ : Causes).isEmpty = true := rfl
  cases o <;>
    simp_all [HasCauses, ofCauses, initializers, finalizers, ← SortedSet.isEmpty_eq_false_iff]

theorem hasCauses_foldl_meet {a : Occupancy} (ha : a.HasCauses) (h : ∀ o ∈ os, o.HasCauses) :
    (os.foldl meet a).HasCauses := by
  induction os generalizing a with
  | nil => exact ha
  | cons o os ih =>
    obtain ⟨ho, hos⟩ := List.forall_mem_cons.mp h
    exact ih (ha.meet ho) hos

theorem initializers_foldl_meet (a : Occupancy) :
    (os.foldl meet a).initializers =
      os.foldl (fun s o => s ∪ o.initializers) a.initializers := by
  induction os generalizing a with
  | nil => rfl
  | cons o os ih => rw [List.foldl_cons, ih, List.foldl_cons, initializers_meet]

theorem finalizers_foldl_meet (a : Occupancy) :
    (os.foldl meet a).finalizers = os.foldl (fun s o => s ∪ o.finalizers) a.finalizers := by
  induction os generalizing a with
  | nil => rfl
  | cons o os ih => rw [List.foldl_cons, ih, List.foldl_cons, finalizers_meet]

/-- If no leaf lacks its causes, the state of a structure is the join of its leaves. -/
theorem synthesize_eq_foldl_meet (h : ∀ o ∈ os, o.HasCauses) :
    synthesize os = os.foldl meet unknown := by
  have hc := (hasCauses_foldl_meet (a := unknown) trivial h).ofCauses_eq
  rw [initializers_foldl_meet, finalizers_foldl_meet] at hc
  exact hc

theorem foldl_meet_eq (a : Occupancy) (os : List Occupancy) :
    os.foldl meet a = a.meet (os.foldl meet unknown) := by
  induction os generalizing a with
  | nil => exact (meet_unknown a).symm
  | cons o os ih =>
    rw [List.foldl_cons, List.foldl_cons, ih, ih (unknown.meet o), unknown_meet]
    exact sup_assoc a o _

theorem foldl_meet_flatten (groups : List (List Occupancy)) :
    (groups.map (·.foldl meet unknown)).foldl meet unknown = groups.flatten.foldl meet unknown := by
  induction groups with
  | nil => rfl
  | cons os groups ih =>
    rw [List.map_cons, List.foldl_cons, unknown_meet, foldl_meet_eq, ih, List.flatten_cons,
      List.foldl_append, foldl_meet_eq (os.foldl meet unknown)]

end Occupancy

namespace Layout

variable {α β : Type} {l ms : Layout α} {name : Name} {rest : List Name} {depth : Nat}
  {path : ResourcePath}

theorem names_map (f : α → β) (l : Layout α) : (l.map f).names = l.names := by
  induction l with
  | nil => rfl
  | leaf key value rest ih => exact congrArg (key :: ·) ih
  | node key ms rest _ ih => exact congrArg (key :: ·) ih

theorem names_congr {m : Layout β} (h : l.shape = m.shape) : l.names = m.names := by
  rw [← names_map (fun _ => ()) l, ← names_map (fun _ => ()) m]
  exact congrArg names h

theorem DistinctMembers.congr {m : Layout β} (hl : l.DistinctMembers) (h : l.shape = m.shape) :
    m.DistinctMembers := by
  induction l generalizing m with
  | nil =>
    obtain rfl := eq_nil_of_shape h
    trivial
  | leaf key v rest ih =>
    obtain ⟨w, rest', rfl, hr⟩ := eq_leaf_of_shape h
    exact ih (m := rest') hl hr
  | node key ms rest ihm ih =>
    obtain ⟨ns, rest', rfl, hm, hr⟩ := eq_node_of_shape h
    obtain ⟨hn, hms, hrest⟩ := hl
    exact ⟨names_congr hm ▸ hn, ihm hms hm, ih hrest hr⟩

theorem filter_zip_eq_nil (h : name ∉ l.names) (rest : List Name) :
    (l.paths.zip l.values).filter (fun kv => name :: rest <+: kv.1.names) = [] := by
  refine List.filter_eq_nil_iff.mpr fun kv hkv hp => h ?_
  have hp : name :: rest <+: kv.1.root :: kv.1.members := of_decide_eq_true hp
  obtain ⟨rfl, -⟩ := List.cons_prefix_cons.mp hp
  exact root_mem_names (List.of_mem_zip (a := kv.1) (b := kv.2) hkv).1

theorem filter_zip_of_walk (hn : l.names.Nodup) (h : l.DistinctMembers) {slot : Slot α}
    (hw : walk depth l name rest = .ok slot) :
    ((l.paths.zip l.values).filter fun kv => name :: rest <+: kv.1.names).map Prod.snd =
      slot.values := by
  induction l generalizing name rest depth with
  | nil => cases rest <;> cases hw
  | leaf key v others ih =>
    obtain ⟨hkey, hn⟩ := List.nodup_cons.mp hn
    rw [paths, values, List.zip_cons_cons, List.filter_cons]
    by_cases hk : key = name
    · subst hk
      rw [filter_zip_eq_nil hkey rest]
      cases rest with
      | nil =>
        obtain rfl : Slot.leaf v = slot := by simpa [walk, find?] using hw
        simp [ResourcePath.names, ResourcePath.ofVariable]
      | cons next more => cases more <;> simp [walk, find?, Slot.members] at hw
    · have hw : walk depth others name rest = .ok slot :=
        walk_eq_of_find? (by simp [find?, hk]) hw
      rw [if_neg (by simp [ResourcePath.names, ResourcePath.ofVariable, Ne.symm hk]), ih hn h hw]
  | node key ms others ihm ih =>
    obtain ⟨hkey, hn⟩ := List.nodup_cons.mp hn
    obtain ⟨hmn, hm, hr⟩ := h
    rw [paths, values, List.zip_append (by simp [length_paths]), List.filter_append,
      List.zip_map_left, List.filter_map, List.map_append, List.map_map]
    by_cases hk : key = name
    · subst hk
      rw [filter_zip_eq_nil hkey rest, List.map_nil, List.append_nil]
      cases rest with
      | nil =>
        obtain rfl : Slot.inner ms = slot := by simpa [walk, find?] using hw
        rw [List.filter_eq_self.mpr (by simp [ResourcePath.names])]
        exact List.map_snd_zip (Nat.le_of_eq ms.length_paths.symm)
      | cons next more =>
        have hw : walk (depth + 1) ms next more = .ok slot := by
          simpa [walk, find?, Slot.members] using hw
        rw [← ihm hmn hm hw]
        simp [ResourcePath.names, Function.comp_def, List.cons_prefix_cons]
    · have hw : walk depth others name rest = .ok slot :=
        walk_eq_of_find? (by simp [find?, hk]) hw
      rw [ih hn hr hw, List.filter_eq_nil_iff.mpr (by simp [ResourcePath.names, Ne.symm hk])]
      rfl

theorem walk_append_singleton {slot : Slot α} (hw : walk depth l name rest = .ok slot)
    (member : Name) {inner : Slot α} (hf : slot.members.find? member = some inner) :
    walk depth l name (rest ++ [member]) = .ok inner := by
  induction rest generalizing l name depth with
  | nil =>
    cases hl : l.find? name with
    | none => simp [walk, hl] at hw
    | some found =>
      obtain rfl : found = slot := by simpa [walk, hl] using hw
      simp [walk, hl, hf]
  | cons next rest ih =>
    cases hl : l.find? name with
    | none => simp [walk, hl] at hw
    | some found =>
      have hw : walk (depth + 1) found.members next rest = .ok slot := by
        simpa [walk, hl] using hw
      simpa [walk, hl] using ih hw

theorem DistinctMembers.find? (h : l.DistinctMembers) (hf : l.find? name = some (.inner ms)) :
    ms.names.Nodup ∧ ms.DistinctMembers := by
  induction l with
  | nil => cases hf
  | leaf key v rest ih =>
    rw [Layout.find?] at hf
    split at hf
    · cases hf
    · exact ih h hf
  | node key ns rest _ ih =>
    obtain ⟨hn, hns, hrest⟩ := h
    rw [Layout.find?] at hf
    split at hf
    · cases hf
      exact ⟨hn, hns⟩
    · exact ih hrest hf

theorem DistinctMembers.walk (h : l.DistinctMembers)
    (hw : Layout.walk depth l name rest = .ok (.inner ms)) : ms.names.Nodup := by
  induction rest generalizing l name depth with
  | nil =>
    cases hf : l.find? name with
    | none => simp [Layout.walk, hf] at hw
    | some found =>
      obtain rfl : found = .inner ms := by simpa [Layout.walk, hf] using hw
      exact (h.find? hf).1
  | cons next rest ih =>
    cases hf : l.find? name with
    | none => simp [Layout.walk, hf] at hw
    | some found =>
      have hw : Layout.walk (depth + 1) found.members next rest = .ok (.inner ms) := by
        simpa [Layout.walk, hf] using hw
      cases found with
      | leaf v => exact ih (l := .nil) trivial hw
      | inner ns => exact ih (h.find? hf).2 hw

theorem map_fst_slots (l : Layout α) : l.slots.map Prod.fst = l.names := by
  induction l with
  | nil => rfl
  | leaf key v rest ih => exact congrArg (key :: ·) ih
  | node key ms rest _ ih => exact congrArg (key :: ·) ih

theorem flatten_values_slots (l : Layout α) : (l.slots.map (·.2.values)).flatten = l.values := by
  induction l with
  | nil => rfl
  | leaf key v rest ih => exact congrArg (v :: ·) ih
  | node key ms rest _ ih => exact congrArg (ms.values ++ ·) ih

theorem find?_of_mem_slots (hn : l.names.Nodup) {m : Name × Slot α} (h : m ∈ l.slots) :
    l.find? m.1 = some m.2 := by
  have hmem : ∀ {l : Layout α}, m ∈ l.slots → m.1 ∈ l.names := by
    intro l h
    exact map_fst_slots l ▸ List.mem_map_of_mem h
  induction l with
  | nil => cases h
  | leaf key v rest ih =>
    obtain ⟨hkey, hn⟩ := List.nodup_cons.mp hn
    rcases List.mem_cons.mp h with rfl | h
    · simp [find?]
    · have hne : key ≠ m.1 := fun he => hkey (he ▸ hmem h)
      rw [find?, if_neg hne, ih hn h]
  | node key ms rest _ ih =>
    obtain ⟨hkey, hn⟩ := List.nodup_cons.mp hn
    rcases List.mem_cons.mp h with rfl | h
    · simp [find?]
    · have hne : key ≠ m.1 := fun he => hkey (he ▸ hmem h)
      rw [find?, if_neg hne, ih hn h]

end Layout

namespace Snapshot

variable {l : Layout Ty} {s : Snapshot} {path : ResourcePath}

/-- A snapshot that is made from the blank one of an environment by initializing and finalizing
slots and by joining. -/
inductive Reachable (env : Environment) : Snapshot → Prop where
  | blank {s : Snapshot} : Snapshot.blank env = .ok s → Reachable env s
  | initializing {s t : Snapshot} (path : ResourcePath) (span : Span) :
      Reachable env s → s.initializeAt path span = .ok t → Reachable env t
  | finalizing {s t : Snapshot} (path : ResourcePath) (span : Span) :
      Reachable env s → s.finalizeAt path span = .ok t → Reachable env t
  | meeting {s t : Snapshot} : Reachable env s → Reachable env t → Reachable env (s.meet t)

/-- In each reachable snapshot the slots are those of the environment and no state lacks causes. -/
theorem Reachable.shape_and_hasCauses {env : Environment} (h : Reachable env s)
    (hl : env.layout = .ok l) :
    Layout.shape s = l.shape ∧ s.HasCauses := by
  induction h with
  | blank h =>
    rw [Snapshot.blank, hl] at h
    obtain rfl := Except.ok.inj h
    refine ⟨l.shape_map _, fun o ho => ?_⟩
    obtain ⟨ty, -, rfl⟩ := List.mem_map.mp (l.values_map _ ▸ ho)
    trivial
  | initializing path span _ h ih =>
    obtain ⟨-, rfl⟩ := Layout.update_eq_ok_iff.mp h
    exact ⟨(Layout.shape_modify ..).trans ih.1,
      SlotAction.apply_eq_modify _ (.initializing path span) ▸ SlotAction.hasCauses_apply _ ih.2⟩
  | finalizing path span _ h ih =>
    obtain ⟨-, rfl⟩ := Layout.update_eq_ok_iff.mp h
    exact ⟨(Layout.shape_modify ..).trans ih.1,
      SlotAction.apply_eq_modify _ (.finalizing path span) ▸ SlotAction.hasCauses_apply _ ih.2⟩
  | meeting _ _ ihs iht =>
    have hst := ihs.1.trans iht.1.symm
    exact ⟨(Layout.shape_zipWith _ hst).trans ihs.1, HasCauses.meet hst ihs.2 iht.2⟩

theorem HasCauses.slot (hs : s.HasCauses) {slot : Slot Occupancy}
    (h : Layout.slot s path = .ok slot) : ∀ o ∈ slot.values, o.HasCauses := by
  obtain ⟨pre, post, hv, -⟩ := Layout.slot_split h
  intro o ho
  refine hs o ?_
  rw [hv]
  simp [ho]

theorem HasCauses.read_eq (hs : s.HasCauses) {slot : Slot Occupancy}
    (h : Layout.slot s path = .ok slot) :
    s.read path = .ok (slot.values.foldl Occupancy.meet .unknown) := by
  cases slot with
  | leaf o => simp [read, h]
  | inner ms =>
    simp only [read, h, Slot.values_inner]
    exact congrArg Except.ok (Occupancy.synthesize_eq_foldl_meet (hs.slot h))

/-- To read something as a join in one order is to read it as a join in every order. -/
theorem exists_join_of_perm {κ : Type} {R : κ → Occupancy → Prop} {ks ks' : List κ}
    {os : List Occupancy} (hp : ks'.Perm ks) (h : List.Forall₂ R ks os) :
    ∃ os', List.Forall₂ R ks' os' ∧
      os'.foldl Occupancy.meet .unknown = os.foldl Occupancy.meet .unknown := by
  obtain ⟨os', hR, hos⟩ := List.perm_comp_forall₂ hp h
  exact ⟨os', hR, hos.foldl_eq _⟩

theorem HasCauses.exists_leaves (hs : s.HasCauses) (hn : (Layout.names s).Nodup)
    (hm : Layout.DistinctMembers s) {slot : Slot Occupancy} (h : Layout.slot s path = .ok slot) :
    ∃ os, List.Forall₂ (fun k o => Layout.leafAt s k = .ok o)
        (s.paths.filter (path.names <+: ·.names)) os ∧
      s.read path = .ok (os.foldl Occupancy.meet .unknown) := by
  let below := (s.paths.zip s.values).filter fun kv => path.names <+: kv.1.names
  have hfst : below.map Prod.fst = s.paths.filter (path.names <+: ·.names) := by
    conv_rhs => rw [← List.map_fst_zip (Nat.le_of_eq (Layout.length_paths s)), List.filter_map]
    rfl
  have hsnd : below.map Prod.snd = slot.values :=
    Layout.filter_zip_of_walk hn hm (Layout.slot_eq_ok_iff.mp h)
  refine ⟨below.map Prod.snd, ?_, by rw [hsnd, hs.read_eq h]⟩
  rw [← hfst, List.forall₂_map_left_iff, List.forall₂_map_right_iff, List.forall₂_same]
  intro kv hkv
  exact Layout.leafAt_eq_ok_iff.mpr
    (Layout.walk_of_mem_zip hn hm (List.mem_of_mem_filter hkv) 1)

theorem HasCauses.exists_members (hs : s.HasCauses) {ms : Layout Occupancy}
    (hm : ms.names.Nodup) (h : Layout.slot s path = .ok (.inner ms)) :
    ∃ os, List.Forall₂ (fun m o => s.read (path.push m) = .ok o) ms.names os ∧
      s.read path = .ok (os.foldl Occupancy.meet .unknown) := by
  let join (m : Name × Slot Occupancy) := m.2.values.foldl Occupancy.meet .unknown
  refine ⟨ms.slots.map join, ?_, ?_⟩
  · rw [← ms.map_fst_slots, List.forall₂_map_left_iff, List.forall₂_map_right_iff,
      List.forall₂_same]
    intro m hmem
    have hslot : Layout.slot s (path.push m.1) = .ok m.2 :=
      Layout.slot_eq_ok_iff.mpr (Layout.walk_append_singleton (Layout.slot_eq_ok_iff.mp h) m.1
        (Layout.find?_of_mem_slots hm hmem))
    exact hs.read_eq hslot
  · have hjoin : ms.slots.map join =
        (ms.slots.map (·.2.values)).map (·.foldl Occupancy.meet .unknown) := by
      rw [List.map_map]
      rfl
    rw [hs.read_eq h, hjoin, Occupancy.foldl_meet_flatten, ms.flatten_values_slots,
      Slot.values_inner]

/-- No leaf of a reachable snapshot lacks its causes. What is read at a path is therefore the join,
in any order, of the leaves at or below it. For a structure it is also the join, in any order, of
what is read at its members. -/
theorem reads_are_joins {env : Environment} (hl : env.layout = .ok l) (hn : l.DistinctMembers)
    (h : Reachable env s) :
    s.HasCauses ∧
    (∀ path slot, Layout.slot s path = .ok slot →
      ∀ ks : List ResourcePath, ks.Perm (s.paths.filter (path.names <+: ·.names)) →
        ∃ os, List.Forall₂ (fun k o => Layout.leafAt s k = .ok o) ks os ∧
          s.read path = .ok (os.foldl Occupancy.meet .unknown)) ∧
    ∀ path ms, Layout.slot s path = .ok (.inner ms) →
      ∀ members : List Name, members.Perm ms.names →
        ∃ os, List.Forall₂ (fun m o => s.read (path.push m) = .ok o) members os ∧
          s.read path = .ok (os.foldl Occupancy.meet .unknown) := by
  obtain ⟨hshape, hs⟩ := h.shape_and_hasCauses hl
  have hnames : (Layout.names s).Nodup := by
    rw [Layout.names_congr hshape, Environment.names_layout hl]
    exact env.vars.nodup_keys
  have hm : Layout.DistinctMembers s := hn.congr hshape.symm
  refine ⟨hs, fun path slot hslot ks hks => ?_, fun path ms hslot members hmembers => ?_⟩
  · obtain ⟨os, hos, hread⟩ := hs.exists_leaves hnames hm hslot
    obtain ⟨os', hos', hjoin⟩ := exists_join_of_perm hks hos
    exact ⟨os', hos', hjoin ▸ hread⟩
  · obtain ⟨os, hos, hread⟩ := hs.exists_members (hm.walk (Layout.slot_eq_ok_iff.mp hslot)) hslot
    obtain ⟨os', hos', hjoin⟩ := exists_join_of_perm hmembers hos
    exact ⟨os', hos', hjoin ▸ hread⟩

end Snapshot

namespace Marker

def blank : Snapshot := layout.map fun _ => .unknown

def placed : Snapshot := blank.modify pos (·.overwrite (.initializedAt ⟨1, 2⟩))

def cleared : Snapshot := blank.modify ⟨"p", ["pos", "x"]⟩ (·.overwrite (.finalizedAt ⟨3, 4⟩))

theorem reachable_placed_meet_cleared : Snapshot.Reachable env (placed.meet cleared) := by
  have hblank : Snapshot.Reachable env blank := .blank (by decide +kernel)
  have hplaced : Snapshot.Reachable env placed :=
    .initializing pos ⟨1, 2⟩ hblank (by decide +kernel)
  have hcleared : Snapshot.Reachable env cleared :=
    .finalizing ⟨"p", ["pos", "x"]⟩ ⟨3, 4⟩ hblank (by decide +kernel)
  exact .meeting hplaced hcleared

/-- On one way the position is set, on another one coordinate of it is taken away, and the tag is
known on neither. The marker is read as the join of its leaves, from the last one on, and of its
members. -/
theorem reads_are_joins_marker :
    env.layout = .ok layout ∧ layout.DistinctMembers ∧
    Snapshot.Reachable env (placed.meet cleared) ∧
    (placed.meet cleared).read (.ofVariable "p") =
      .ok (.conflict (.singleton ⟨1, 2⟩) (.singleton ⟨3, 4⟩)) ∧
    (∃ os, List.Forall₂ (fun k o => Layout.leafAt (placed.meet cleared) k = .ok o)
        [⟨"p", ["tag"]⟩, ⟨"p", ["pos", "y"]⟩, ⟨"p", ["pos", "x"]⟩] os ∧
      (placed.meet cleared).read (.ofVariable "p") = .ok (os.foldl Occupancy.meet .unknown)) ∧
    ∃ os, List.Forall₂ (fun m o => (placed.meet cleared).read ⟨"p", [m]⟩ = .ok o)
        ["tag", "pos"] os ∧
      (placed.meet cleared).read (.ofVariable "p") = .ok (os.foldl Occupancy.meet .unknown) := by
  have hl : env.layout = .ok layout := by decide +kernel
  have hn : layout.DistinctMembers :=
    ⟨by decide, ⟨by decide, trivial, trivial⟩, by decide, trivial, trivial⟩
  obtain ⟨-, hleaves, hmembers⟩ := Snapshot.reads_are_joins hl hn reachable_placed_meet_cleared
  obtain ⟨ms, hslot, hnames⟩ : ∃ ms, Layout.slot (placed.meet cleared) (.ofVariable "p") =
      .ok (.inner ms) ∧ ["tag", "pos"].Perm ms.names := ⟨_, rfl, by decide +kernel⟩
  exact ⟨hl, hn, reachable_placed_meet_cleared, by decide +kernel,
    hleaves _ _ hslot _ (by decide +kernel), hmembers _ _ hslot _ hnames⟩

end Marker

end Reversible
