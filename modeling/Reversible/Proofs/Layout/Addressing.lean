import Reversible.Occupancy.Snapshot
import Reversible.Proofs.Layout.Map
import Reversible.Proofs.Layout.Variables

/-! # Addressing

Reading, changing and listing the leaves of a layout are separate searches, and they agree on which
leaf a path addresses. A search fails at the shortest part of the path that names no slot, and then
changes nothing. A change reaches the leaves that its path is a prefix of. If no two siblings share
a name, the listed paths are those of the leaves, each listed once.
-/

namespace Reversible

namespace Layout

variable {α β γ : Type} {l d : Layout α} {name : Name} {path : ResourcePath}

def Has (l : Layout α) (path : ResourcePath) : Prop := ∃ slot, l.slot path = .ok slot

/-- The first `n` names of a path name no slot, and fewer do. -/
structure BreaksAt (l : Layout α) (path : ResourcePath) (n : Nat) : Prop where
  pos : 1 ≤ n
  le_length : n ≤ path.length
  missing : ¬ l.Has (path.take n)
  before : ∀ m, 1 ≤ m → m < n → l.Has (path.take m)

/-- The answer of a search for the slot at a path: it succeeds if and only if there is one, and
otherwise names the shortest part of the path that names no slot. -/
structure Answers (l : Layout α) (path : ResourcePath) (answer : Except PlaceError γ) : Prop where
  ok_iff : (∃ value, answer = .ok value) ↔ l.Has path
  error_eq : ∀ e, answer = .error e → ∃ n, l.BreaksAt path n ∧ e = .unknown (path.take n)

theorem exists_walk_take_of_error {rest : List Name} {depth n : Nat}
    (h : walk depth l name rest = .error n) :
    ∃ m ≤ rest.length, n = depth + m ∧ walk depth l name (rest.take m) = .error n ∧
      ∀ j < m, ∃ slot, walk depth l name (rest.take j) = .ok slot := by
  induction rest generalizing l name depth with
  | nil =>
    cases hf : l.find? name with
    | none =>
      obtain rfl : depth = n := by simpa [walk, hf] using h
      exact ⟨0, Nat.le_refl 0, rfl, h, by simp⟩
    | some slot => simp [walk, hf] at h
  | cons next rest ih =>
    cases hf : l.find? name with
    | none =>
      obtain rfl : depth = n := by simpa [walk, hf] using h
      exact ⟨0, Nat.zero_le _, rfl, by simp [walk, hf], by simp⟩
    | some slot =>
      have hw : walk (depth + 1) slot.members next rest = .error n := by simpa [walk, hf] using h
      obtain ⟨m, hm, rfl, herr, hok⟩ := ih hw
      refine ⟨m + 1, Nat.succ_le_succ hm, by omega, by simpa [walk, hf] using herr, ?_⟩
      intro j hj
      cases j with
      | zero => exact ⟨slot, by simp [walk, hf]⟩
      | succ j => simpa [walk, hf] using hok j (by omega)

theorem has_take_succ_iff {m : Nat} : l.Has (path.take (m + 1)) ↔
    ∃ slot, walk 1 l path.root (path.members.take m) = .ok slot := by
  simp only [Has, slot_eq_ok_iff]
  rfl

theorem exists_breaksAt_of_slot {e : PlaceError} (h : l.slot path = .error e) :
    ∃ n, l.BreaksAt path n ∧ e = .unknown (path.take n) := by
  rw [slot] at h
  split at h
  · next n hw =>
    obtain ⟨m, hm, rfl, herr, hok⟩ := exists_walk_take_of_error hw
    rw [Nat.add_comm] at h
    refine ⟨m + 1, ⟨by omega, Nat.succ_le_succ hm, ?_, ?_⟩, (Except.error.inj h).symm⟩
    · simp [has_take_succ_iff, herr]
    · intro j hj hlt
      obtain ⟨j, rfl⟩ := Nat.exists_eq_add_of_le' hj
      exact has_take_succ_iff.mpr (hok j (by omega))
  · cases h

/-- What is read off the slot at a path answers like the search for it, in any layout of the same
shape. -/
theorem answers_of_slot {m : Layout β} (hm : m.shape = l.shape) {answer : Except PlaceError γ}
    (hok : ∀ slot, m.slot path = .ok slot → ∃ value, answer = .ok value)
    (herr : ∀ e, m.slot path = .error e → answer = .error e) : l.Answers path answer := by
  cases hs : m.slot path with
  | ok slot =>
    obtain ⟨value, rfl⟩ := hok slot hs
    refine ⟨iff_of_true ⟨value, rfl⟩ ((exists_slot_congr hm).mp ⟨slot, hs⟩), ?_⟩
    intro e he
    cases he
  | error e =>
    obtain rfl := herr e hs
    have hl := slot_error_congr hm hs
    constructor
    · simp [Has, hl]
    · rintro _ ⟨⟩
      exact exists_breaksAt_of_slot hl

theorem answers_slot (l : Layout α) (path : ResourcePath) : l.Answers path (l.slot path) :=
  answers_of_slot rfl (fun slot hs => ⟨slot, hs⟩) fun _ he => he

theorem answers_update (l : Layout α) (path : ResourcePath) (f : α → α) :
    l.Answers path (l.update path f) :=
  answers_of_slot rfl (fun _ hs => ⟨l.modify path f, by rw [update, hs]⟩)
    fun _ he => by rw [update, he]

theorem answers_read {s : Snapshot} (hs : s.shape = l.shape) (path : ResourcePath) :
    l.Answers path (s.read path) := by
  refine answers_of_slot hs ?_ fun e he => by rw [Snapshot.read, he]
  rintro (state | ms) hslot
  · exact ⟨state, by rw [Snapshot.read, hslot]⟩
  · exact ⟨.synthesize ms.values, by rw [Snapshot.read, hslot]⟩

theorem slot_adjustAt (f : Slot α → Slot α) (l : Layout α) (path : ResourcePath) :
    (adjustAt f l path.root path.members).slot path = (l.slot path).map f := by
  rw [slot, slot, walk_adjustAt_self]
  cases walk 1 l path.root path.members <;> rfl

theorem adjustAt_eq_self_of_not_has (f : Slot α → Slot α) (h : ¬ l.Has path) :
    adjustAt f l path.root path.members = l := by
  cases hw : walk 1 l path.root path.members with
  | error n => exact adjustAt_eq_self_of_walk hw
  | ok slot => exact absurd ⟨slot, slot_eq_ok_iff.mpr hw⟩ h

theorem update_eq_ok_iff {f : α → α} {d : Layout α} :
    l.update path f = .ok d ↔ l.Has path ∧ d = l.modify path f := by
  rw [update]
  cases hs : l.slot path <;> simp [Has, hs, eq_comm]

section Listing

theorem mem_paths_iff (hn : l.names.Nodup) (h : l.DistinctMembers) :
    path ∈ l.paths ↔ ∃ v, l.leafAt path = .ok v := by
  constructor
  · intro hp
    rw [← List.map_fst_zip (Nat.le_of_eq l.length_paths)] at hp
    obtain ⟨⟨path, v⟩, hv, rfl⟩ := List.mem_map.mp hp
    exact ⟨v, leafAt_eq_ok_iff.mpr (walk_of_mem_zip hn h hv 1)⟩
  · rintro ⟨v, hv⟩
    exact mem_paths_of_leafAt hv

theorem exists_leafAt_congr {m : Layout β} (hm : m.shape = l.shape) :
    (∃ v, m.leafAt path = .ok v) ↔ ∃ v, l.leafAt path = .ok v := by
  have hc : (m.leafAt path).map (fun _ => ()) = (l.leafAt path).map fun _ => () := by
    rw [← leafAt_map, ← leafAt_map]
    exact congrArg (·.leafAt path) hm
  cases hl : l.leafAt path <;> cases hml : m.leafAt path <;> simp [hl, hml, Except.map] at hc ⊢

theorem leafAt_zipWith (f : α → α → α) {e : Layout α} (he : d.shape = e.shape) {k : Nat}
    (hk : (d.numberFrom 0).leafAt path = .ok k) :
    ∃ v w, d.leafAt path = .ok v ∧ e.leafAt path = .ok w ∧
      (zipWith f d e).leafAt path = .ok (f v w) := by
  have hlt : k < d.values.length := by
    have hmem : k ∈ (d.numberFrom 0).values := mem_values_of_leafAt hk
    rw [values_numberFrom, List.mem_range'_1] at hmem
    omega
  obtain ⟨w, hw⟩ := exists_getElem?_of_shape he (List.getElem?_eq_getElem hlt)
  refine ⟨d.values[k], w, leafAt_eq_of_shape rfl hk (List.getElem?_eq_getElem hlt),
    leafAt_eq_of_shape he.symm hk hw, leafAt_eq_of_shape (shape_zipWith f he) hk ?_⟩
  rw [values_zipWith f he]
  simp [List.getElem?_zipWith, hw, List.getElem?_eq_getElem hlt]

end Listing

end Layout

/-- In every layout with the slots of an environment, the searches by path agree. The paths of the
leaves are listed once each. Finding, reading and changing a slot succeed for the same paths, and
otherwise name the shortest part of the path that names no slot and change nothing. A change is seen
at the leaves below its path only, and two layouts combine leaf by leaf. -/
theorem Environment.layout_addresses {env : Environment} {l : Layout Ty} (hl : env.layout = .ok l)
    (hn : l.DistinctMembers) {α : Type} {d : Layout α} (hd : d.shape = l.shape) :
    d.paths.Nodup ∧
    (∀ path, path ∈ d.paths ↔ ∃ v, d.leafAt path = .ok v) ∧
    (∀ path, d.Answers path (d.slot path) ∧ (∀ f, d.Answers path (d.update path f)) ∧
      (∀ s : Snapshot, s.shape = l.shape → d.Answers path (s.read path)) ∧
      ∀ g, (Layout.adjustAt g d path.root path.members).slot path = (d.slot path).map g ∧
        (¬ d.Has path → Layout.adjustAt g d path.root path.members = d)) ∧
    (∀ path f d', d.update path f = .ok d' → d'.paths = d.paths ∧
      ∀ k ∈ d.paths, ∃ v, d.leafAt k = .ok v ∧
        d'.leafAt k = .ok (if path.names <+: k.names then f v else v)) ∧
    ∀ f e, e.shape = l.shape → (Layout.zipWith f d e).paths = d.paths ∧
      ∀ k ∈ d.paths, ∃ v w, d.leafAt k = .ok v ∧ e.leafAt k = .ok w ∧
        (Layout.zipWith f d e).leafAt k = .ok (f v w) := by
  have hnames : l.names.Nodup := names_layout hl ▸ env.vars.nodup_keys
  have hpaths : d.paths = l.paths := Layout.paths_congr hd
  have hmem : ∀ path, path ∈ d.paths ↔ ∃ v, d.leafAt path = .ok v := by
    intro path
    rw [hpaths, Layout.exists_leafAt_congr hd]
    exact Layout.mem_paths_iff hnames hn
  refine ⟨hpaths ▸ Layout.nodup_paths hnames hn, hmem, fun path => ?_, ?_, ?_⟩
  · exact ⟨d.answers_slot path, d.answers_update path,
      fun s hs => Layout.answers_read (hs.trans hd.symm) path,
      fun g => ⟨d.slot_adjustAt g path, Layout.adjustAt_eq_self_of_not_has g⟩⟩
  · intro path f d' hu
    obtain ⟨-, rfl⟩ := Layout.update_eq_ok_iff.mp hu
    refine ⟨Layout.paths_congr (d.shape_modify path f), fun k hk => ?_⟩
    obtain ⟨v, hv⟩ := (hmem k).mp hk
    refine ⟨v, hv, ?_⟩
    rw [Layout.leafAt_modify, hv]
    split_ifs <;> rfl
  · intro f e he
    have hde : d.shape = e.shape := hd.trans he.symm
    refine ⟨Layout.paths_congr (Layout.shape_zipWith f hde), fun k hk => ?_⟩
    obtain ⟨n, hleaf⟩ := (Layout.exists_leafAt_congr (d.shape_numberFrom 0)).mpr ((hmem k).mp hk)
    exact Layout.leafAt_zipWith f hde hleaf

namespace Marker

/-- A marked point and a plain one. The type of a point has a second name. -/
def env : Environment where
  types := ((∅ : NameMap Ty).insert "Point" (.record [("x", .int), ("y", .int)])).insert "Spot"
    (.named "Point")
  vars := ((∅ : NameMap Ty).insert "p" (.record [("pos", .named "Spot"), ("tag", .int)])).insert "q"
    (.named "Point")

def point : Layout Ty := .leaf "x" .int (.leaf "y" .int .nil)

def layout : Layout Ty :=
  .node "p" (.node "pos" point (.leaf "tag" .int .nil)) (.node "q" point .nil)

def pos : ResourcePath := ⟨"p", ["pos"]⟩

/-- A point has two coordinates only. -/
def astray : ResourcePath := ⟨"p", ["pos", "z", "w"]⟩

theorem layout_addresses_marker :
    env.layout = .ok layout ∧ layout.DistinctMembers ∧
      (layout.numberFrom 0).paths =
        [⟨"p", ["pos", "x"]⟩, ⟨"p", ["pos", "y"]⟩, ⟨"p", ["tag"]⟩, ⟨"q", ["x"]⟩, ⟨"q", ["y"]⟩] ∧
      (layout.numberFrom 0).paths.Nodup ∧
      (∃ d, (layout.numberFrom 0).update pos (· + 7) = .ok d ∧ d.values = [7, 8, 2, 3, 4] ∧
        ∀ k ∈ (layout.numberFrom 0).paths, ∃ v, (layout.numberFrom 0).leafAt k = .ok v ∧
          d.leafAt k = .ok (if pos.names <+: k.names then v + 7 else v)) ∧
      ∃ n, (layout.numberFrom 0).BreaksAt astray n ∧ astray.take n = ⟨"p", ["pos", "z"]⟩ := by
  have hl : env.layout = .ok layout := by decide +kernel
  have hn : layout.DistinctMembers :=
    ⟨by decide, ⟨by decide, trivial, trivial⟩, by decide, trivial, trivial⟩
  obtain ⟨hnodup, -, hanswers, hupdate, -⟩ :=
    Environment.layout_addresses hl hn (layout.shape_numberFrom 0)
  have hu : (layout.numberFrom 0).update pos (· + 7) =
      .ok ((layout.numberFrom 0).modify pos (· + 7)) := by decide +kernel
  have he : (layout.numberFrom 0).slot astray = .error (.unknown ⟨"p", ["pos", "z"]⟩) := by
    decide +kernel
  obtain ⟨n, hbreak, hpart⟩ := (hanswers astray).1.error_eq _ he
  exact ⟨hl, hn, by decide +kernel, hnodup, ⟨_, hu, by decide +kernel, (hupdate _ _ _ hu).2⟩,
    n, hbreak, (PlaceError.unknown.inj hpart).symm⟩

end Marker

end Reversible
