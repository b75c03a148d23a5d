import Reversible.Proofs.Layout.Map
import Reversible.Proofs.Occupancy.Routes

/-! # Joins and transfers

States are joined leaf by leaf, so snapshots of one layout form a semilattice as states do, with the
blank snapshot at the bottom. No state is excluded, not even one that lacks its causes. Taking a
snapshot through a block is monotone in the order of joins, and it neither makes nor ends a conflict
at any leaf.
-/

namespace Reversible

/-- On the values that pass `ok`, `join` is the join of a semilattice whose least element is
`bottom`. -/
structure IsJoin {α : Type} (join : α → α → α) (ok : α → Prop) (bottom : α) : Prop where
  ok_bottom : ok bottom
  ok_join : ∀ a b, ok a → ok b → ok (join a b)
  comm : ∀ a b, ok a → ok b → join a b = join b a
  assoc : ∀ a b c, ok a → ok b → ok c → join (join a b) c = join a (join b c)
  self : ∀ a, ok a → join a a = a
  bottom_join : ∀ a, ok a → join bottom a = a

namespace Layout

variable {α β : Type} {f : α → α → α} {l m n : Layout α}

theorem zipWith_comm (hf : ∀ v w, f v w = f w v) (h : l.shape = m.shape) :
    zipWith f l m = zipWith f m l := by
  induction l generalizing m with
  | nil => rw [eq_nil_of_shape h]
  | leaf key v rest ih =>
    obtain ⟨w, rest', rfl, hr⟩ := eq_leaf_of_shape h
    rw [zipWith, zipWith, hf, ih hr]
  | node key ms rest ihm ih =>
    obtain ⟨ns, rest', rfl, hm, hr⟩ := eq_node_of_shape h
    rw [zipWith, zipWith, ihm hm, ih hr]

theorem zipWith_assoc (hf : ∀ u v w, f (f u v) w = f u (f v w)) (hm : l.shape = m.shape)
    (hn : l.shape = n.shape) : zipWith f (zipWith f l m) n = zipWith f l (zipWith f m n) := by
  induction l generalizing m n with
  | nil => rfl
  | leaf key v rest ih =>
    obtain ⟨w, rest', rfl, hr⟩ := eq_leaf_of_shape hm
    obtain ⟨w', rest'', rfl, hr'⟩ := eq_leaf_of_shape hn
    simp only [zipWith, hf, ih hr hr']
  | node key ms rest ihm ih =>
    obtain ⟨ns, rest', rfl, hms, hr⟩ := eq_node_of_shape hm
    obtain ⟨ns', rest'', rfl, hms', hr'⟩ := eq_node_of_shape hn
    simp only [zipWith, ihm hms hms', ih hr hr']

theorem zipWith_self (hf : ∀ v, f v v = v) (l : Layout α) : zipWith f l l = l := by
  induction l with
  | nil => rfl
  | leaf key v rest ih => rw [zipWith, hf, ih]
  | node key ms rest ihm ih => rw [zipWith, ihm, ih]

theorem isJoin_zipWith {bottom : α} (h : IsJoin f (fun _ => True) bottom) (k : Layout β) :
    IsJoin (zipWith f) (fun l => l.shape = k.shape) (k.map fun _ => bottom) where
  ok_bottom := shape_map _ k
  ok_join _ _ hl hm := (shape_zipWith f (hl.trans hm.symm)).trans hl
  comm _ _ hl hm := zipWith_comm (fun v w => h.comm v w trivial trivial) (hl.trans hm.symm)
  assoc _ _ _ hl hm hn := zipWith_assoc (fun u v w => h.assoc u v w trivial trivial trivial)
    (hl.trans hm.symm) (hl.trans hn.symm)
  self l _ := zipWith_self (fun v => h.self v trivial) l
  bottom_join _ hl := (le_iff_zipWith fun _ _ => Iff.rfl).mp
    (map_le_of_shape (fun _ w => h.bottom_join w trivial) hl.symm)

end Layout

theorem Occupancy.isJoin_meet : IsJoin Occupancy.meet (fun _ => True) .unknown where
  ok_bottom := trivial
  ok_join _ _ _ _ := trivial
  comm a b _ _ := sup_comm a b
  assoc a b c _ _ _ := sup_assoc a b c
  self a _ := sup_idem a
  bottom_join a _ := unknown_meet a

namespace Snapshot

theorem isJoin_meet {env : Environment} {blank : Snapshot} (h : Snapshot.blank env = .ok blank) :
    IsJoin Snapshot.meet (fun s => Layout.shape s = Layout.shape blank) blank := by
  rw [Snapshot.blank] at h
  cases hl : env.layout with
  | error e => simp [hl, bind, Except.bind] at h
  | ok l =>
    rw [hl] at h
    obtain rfl := Except.ok.inj h
    rw [Layout.shape_map]
    exact Layout.isJoin_zipWith Occupancy.isJoin_meet l

theorem map_isConflict_foldl_apply (σ : Snapshot) (acts : List SlotAction) :
    Layout.map Occupancy.isConflict (acts.foldl SlotAction.apply σ) =
      Layout.map Occupancy.isConflict σ := by
  induction acts generalizing σ with
  | nil => rfl
  | cons a acts ih =>
    have hid : ∀ o, (a.change o).isConflict = id o.isConflict := a.isConflict_change
    rw [List.foldl_cons, ih, SlotAction.apply_eq_modify, Layout.map_modify hid, Layout.modify_id]

end Snapshot

/-- Joining states is the join of a semilattice, whatever their causes are, and joining snapshots of
one layout is one with the blank snapshot as least element. In the order of these joins, bringing a
slot into a state is monotone in what was known about it, and so is taking a snapshot through a
block. A block leaves each leaf in conflict that was in conflict, and no other. -/
theorem OccupancyProblem.lattice_laws :
    IsJoin Occupancy.meet (fun _ => True) .unknown ∧
    (∀ env blank, Snapshot.blank env = .ok blank →
      IsJoin Snapshot.meet (fun s => Layout.shape s = Layout.shape blank) blank) ∧
    (∀ (a b : Occupancy) (span : Span), a.meet b = b →
      (a.overwrite (.initializedAt span)).meet (b.overwrite (.initializedAt span)) =
        b.overwrite (.initializedAt span) ∧
      (a.overwrite (.finalizedAt span)).meet (b.overwrite (.finalizedAt span)) =
        b.overwrite (.finalizedAt span)) ∧
    ∀ (p : OccupancyProblem) (b : Nat),
      (∀ s t : Snapshot, s.meet t = t → (p.transfer s b).meet (p.transfer t b) = p.transfer t b) ∧
      ∀ s : Snapshot, Layout.map Occupancy.isConflict (p.transfer s b) =
        Layout.map Occupancy.isConflict s := by
  refine ⟨Occupancy.isJoin_meet, fun _ _ => Snapshot.isJoin_meet, fun a b span h => ?_,
    fun p b => ⟨fun s t h => ?_, fun s => s.map_isConflict_foldl_apply _⟩⟩
  · have hle := Occupancy.le_iff_meet.mpr h
    exact ⟨Occupancy.overwrite_initialized_le hle _, Occupancy.overwrite_finalized_le hle _⟩
  · have hle := Snapshot.le_iff_meet.mpr h
    exact Snapshot.le_iff_meet.mp (hle.foldl_apply (p.actions b))

namespace Carry

open Sample (span)

def problem : OccupancyProblem := .ofLayout (.ofRoutine routine) layout [⟨"p", span 1⟩]

/-- Of `p` it is not known whether it has arrived or has been taken away. -/
def doubtful : Snapshot :=
  problem.entry.meet ((SlotAction.finalizing (.ofVariable "p") (span 6)).apply problem.blank)

/-- The loop takes `p` apart and puts it together again, which does not resolve the doubt. -/
theorem lattice_laws_carry : Snapshot.blank env = .ok problem.blank ∧
    problem.blank.meet doubtful = doubtful ∧
    (problem.transfer problem.blank 1).meet (problem.transfer doubtful 1) =
      problem.transfer doubtful 1 ∧
    problem.transfer problem.blank 1 ≠ problem.transfer doubtful 1 ∧
    Layout.map Occupancy.isConflict (problem.transfer doubtful 1) =
      Layout.map Occupancy.isConflict doubtful := by
  obtain ⟨-, hjoin, -, hblock⟩ := OccupancyProblem.lattice_laws
  have hb : Snapshot.blank env = .ok problem.blank := by decide +kernel
  have hle : problem.blank.meet doubtful = doubtful :=
    (hjoin env _ hb).bottom_join _ (by decide +kernel)
  exact ⟨hb, hle, (hblock problem 1).1 _ _ hle, by decide +kernel, (hblock problem 1).2 _⟩

end Carry

end Reversible
