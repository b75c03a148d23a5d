import Mathlib.Logic.Relation
import Reversible.Proofs.Occupancy.History

/-! # What the checks ask of a solution

Each of the three checks on a solution is said through the leaves of its snapshots. A conflict in a
block that a walk reaches is reported, since the first conflicting block of the walk is one where
the conflict arises.
-/

namespace Reversible

namespace Occupancy

variable {a b : Occupancy} {os : List Occupancy}

/-- Nothing is known, or there is a conflict. -/
def IsBlame (o : Occupancy) : Prop := o = unknown ∨ ∃ s t, o = conflict s t

theorem IsBlame.meet (ha : a.IsBlame) (hb : b.IsBlame) :
    (a.meet b).IsBlame ∧ ((a.meet b).isConflict ↔ a.isConflict ∨ b.isConflict) := by
  rcases ha with rfl | ⟨s, t, rfl⟩ <;> rcases hb with rfl | ⟨s', t', rfl⟩ <;>
    simp [IsBlame, Occupancy.meet, isConflict]

theorem IsBlame.foldl_meet (ha : a.IsBlame) (hos : ∀ o ∈ os, o.IsBlame) :
    (os.foldl Occupancy.meet a).IsBlame ∧
      ((os.foldl Occupancy.meet a).isConflict ↔ a.isConflict ∨ ∃ o ∈ os, o.isConflict) := by
  induction os generalizing a with
  | nil => simpa using ha
  | cons o os ih =>
    obtain ⟨hm, hc⟩ := ha.meet (hos o List.mem_cons_self)
    obtain ⟨h₁, h₂⟩ := ih hm fun o' ho' => hos o' (List.mem_cons_of_mem o ho')
    refine ⟨h₁, ?_⟩
    rw [List.foldl_cons, h₂, hc]
    simp only [List.mem_cons, exists_eq_or_imp, or_assoc]

theorem isBlame_of_isConflict (h : a.isConflict) : a.IsBlame := by
  cases a <;> simp [isConflict] at h
  exact .inr ⟨_, _, rfl⟩

theorem IsBlame.isUnknown_iff (h : a.IsBlame) : a.isUnknown ↔ ¬ a.isConflict := by
  rcases h with rfl | ⟨s, t, rfl⟩ <;> simp [isUnknown, isConflict]

end Occupancy

/-- What holds of blocks arises in one of them: it holds of no block that leads there, or not of all
of them. -/
def ControlGraph.Arises (g : ControlGraph) (C : Nat → Prop) : Prop :=
  ∃ b ∈ g.ids, C b ∧ ((∀ c ∈ g.predecessors b, ¬ C c) ∨ ∃ c ∈ g.predecessors b, ¬ C c)

namespace OccupancySolution

variable {g : ControlGraph} {s : OccupancySolution} {leaves : List ResourcePath} {b : Nat}
  {isBlamed : Nat → Bool} {ds : Declarations}

def Conflicting (s : OccupancySolution) (leaves : List ResourcePath) (b : Nat) : Prop :=
  ∃ t, s.output? b = some t ∧ ∃ path ∈ leaves, ∃ o, Layout.leafAt t path = .ok o ∧ o.isConflict

theorem conflictAfter_spec (s : OccupancySolution) (leaves : List ResourcePath) (b : Nat) :
    (s.conflictAfter leaves b).IsBlame ∧
      ((s.conflictAfter leaves b).isConflict ↔ s.Conflicting leaves b) := by
  rw [conflictAfter, Conflicting]
  cases s.output? b with
  | none => simp [Occupancy.IsBlame, Occupancy.isConflict]
  | some t =>
    have hos : ∀ o ∈ (leaves.filterMap fun leaf => (Layout.leafAt t leaf).toOption).filter
        (·.isConflict), o.IsBlame := fun o ho =>
      Occupancy.isBlame_of_isConflict (List.mem_filter.mp ho).2
    obtain ⟨h₁, h₂⟩ := Occupancy.IsBlame.foldl_meet (.inl rfl) hos
    refine ⟨h₁, h₂.trans ?_⟩
    constructor
    · rintro (h | ⟨o, ho, hc⟩)
      · cases h
      · obtain ⟨path, hp, hl⟩ := List.mem_filterMap.mp (List.mem_filter.mp ho).1
        cases hlp : Layout.leafAt t path with
        | error e => simp [hlp, Except.toOption] at hl
        | ok o' =>
          rw [hlp] at hl
          exact ⟨t, rfl, path, hp, o, hlp.trans (congrArg _ (Option.some.inj hl)), hc⟩
    · rintro ⟨t', ht, path, hp, o, hl, hc⟩
      obtain rfl := Option.some.inj ht
      refine .inr ⟨o, List.mem_filter.mpr ⟨List.mem_filterMap.mpr ⟨path, hp, ?_⟩, hc⟩, hc⟩
      rw [hl]
      rfl

theorem isConflict_blame_iff : (blame g s leaves isBlamed).IsBlame ∧
    ((blame g s leaves isBlamed).isConflict ↔
      ∃ b ∈ g.ids, isBlamed b ∧ s.Conflicting leaves b) := by
  have hos : ∀ o ∈ (g.ids.filter isBlamed).map (s.conflictAfter leaves), o.IsBlame := by
    intro o ho
    obtain ⟨b, -, rfl⟩ := List.mem_map.mp ho
    exact (s.conflictAfter_spec leaves b).1
  obtain ⟨h₁, h₂⟩ := Occupancy.IsBlame.foldl_meet (.inl rfl) hos
  refine ⟨h₁, h₂.trans ?_⟩
  constructor
  · rintro (h | ⟨o, ho, hc⟩)
    · cases h
    · obtain ⟨b, hb, rfl⟩ := List.mem_map.mp ho
      obtain ⟨hb, hbl⟩ := List.mem_filter.mp hb
      exact ⟨b, hb, hbl, (s.conflictAfter_spec leaves b).2.mp hc⟩
  · rintro ⟨b, hb, hbl, hc⟩
    refine .inr ⟨_, List.mem_map_of_mem (List.mem_filter.mpr ⟨hb, hbl⟩), ?_⟩
    exact (s.conflictAfter_spec leaves b).2.mpr hc

/-- A conflict is found if it arises somewhere: in a block that no conflicting block leads to, or
in one that some block without conflict leads to. -/
theorem isConflict_conflictOf_iff :
    (conflictOf g s leaves).isConflict ↔ g.Arises (s.Conflicting leaves) := by
  have hconf : ∀ b, (!(s.conflictAfter leaves b).isUnknown) = true ↔ s.Conflicting leaves b := by
    intro b
    obtain ⟨h₁, h₂⟩ := s.conflictAfter_spec leaves b
    rw [Bool.not_eq_true', ← Bool.not_eq_true, h₁.isUnknown_iff, not_not, h₂]
  have horigin : ∀ b, (!(g.predecessors b).any fun c => !(s.conflictAfter leaves c).isUnknown) ↔
      ∀ c ∈ g.predecessors b, ¬ s.Conflicting leaves c := by
    intro b
    simp only [Bool.not_eq_true', ← Bool.not_eq_true, List.any_eq_true, hconf, not_exists, not_and]
  have hmixed : ∀ b, ((g.predecessors b).any fun c => !!(s.conflictAfter leaves c).isUnknown) ↔
      ∃ c ∈ g.predecessors b, ¬ s.Conflicting leaves c := by
    intro b
    simp only [List.any_eq_true, Bool.not_eq_true' (!_), ← hconf, Bool.not_eq_true]
  rw [conflictOf]
  dsimp only
  split
  · next ho =>
    refine iff_of_true ho ?_
    obtain ⟨b, hb, hbl, hc⟩ := isConflict_blame_iff.2.mp ho
    exact ⟨b, hb, hc, .inl ((horigin b).mp hbl)⟩
  · next ho =>
    rw [isConflict_blame_iff.2]
    constructor
    · rintro ⟨b, hb, hbl, hc⟩
      exact ⟨b, hb, hc, .inr ((hmixed b).mp hbl)⟩
    · rintro ⟨b, hb, hc, h | h⟩
      · exact absurd (isConflict_blame_iff.2.mpr ⟨b, hb, (horigin b).mpr h, hc⟩) ho
      · exact ⟨b, hb, (hmixed b).mpr h, hc⟩

theorem conflicts_eq_nil_iff {t : Snapshot} (ht : s.output? g.first = some t) :
    conflicts g s ds = [] ↔
      ∀ x ∈ ds.sites.keys, ¬ (conflictOf g s (t.paths.filter (·.root == x))).isConflict := by
  rw [conflicts, ht, List.filterMap_eq_nil_iff]
  constructor
  · intro h x hx hc
    obtain ⟨e, he, rfl⟩ := List.mem_map.mp hx
    have := h e he
    simp [hc] at this
  · intro h e he
    have hc := h e.1 (List.mem_map_of_mem he)
    simp [hc]

theorem endFault?_eq_none_iff {t : Snapshot} {slot : Slot Occupancy} {x : Name} {site : Span}
    (ht : t.HasCauses) (hslot : Layout.slot t (.ofVariable x) = .ok slot) :
    endFault? t ds x site = none ↔
      if ds.isOutput x then t.Held (t.leavesAt (.ofVariable x))
      else t.Released (t.leavesAt (.ofVariable x)) := by
  obtain ⟨state, hr⟩ := Snapshot.exists_read hslot
  rw [endFault?, hr, ← Snapshot.isInitialized_read_iff ht hr, ← Snapshot.isFinalized_read_iff ht hr]
  by_cases ho : ds.isOutput x
  · simp [ho]
  · simp [ho]

theorem mem_endOrder_iff {e : Name × Span} : e ∈ endOrder ds ↔ e ∈ ds.sites.entries := by
  rw [endOrder, List.mem_append, List.mem_filter, List.mem_filter, ← and_or_left]
  cases ds.isOutput e.1 <;> simp

end OccupancySolution

namespace Routine

variable {r : Routine} {env : Environment} {l : Layout Ty} {ins outs : Nat → Snapshot}
  {b k : Nat} {bs : List Nat} {path : ResourcePath}

theorem last_mem_ids (r : Routine) :
    (ControlGraph.ofRoutine r).last ∈ (ControlGraph.ofRoutine r).ids := by
  have := ControlGraph.size_pos r
  exact List.mem_range.mpr (by rw [ControlGraph.last]; omega)

/-- `c` is the block `b` or leads to it. -/
def LeadsTo (r : Routine) (c b : Nat) : Prop :=
  Relation.ReflTransGen (fun c b => c ∈ (ControlGraph.ofRoutine r).predecessors b) c b

theorem leadsTo_of_walk (hw : (ControlGraph.ofRoutine r).Walk bs b) : r.LeadsTo 0 b := by
  induction hw with
  | start => exact .refl
  | step _ hp ih => exact ih.tail hp

/-- What holds in a block arises on each way to it that begins in the first block, or in a block
where it does not hold. -/
theorem arises_of_leadsTo (hg : ControlGraph.faults r = []) {P : Nat → Prop} {c : Nat}
    (hcb : r.LeadsTo c b) (hc : c = 0 ∨ ¬ P c) (hb : P b) :
    (ControlGraph.ofRoutine r).Arises P := by
  induction hcb with
  | refl =>
    obtain rfl := hc.resolve_right (not_not_intro hb)
    refine ⟨0, List.mem_range.mpr (ControlGraph.size_pos r), hb, .inl ?_⟩
    simp [ControlGraph.predecessors_first hg]
  | @tail d e _ hde ih =>
    by_cases hd : P d
    · exact ih hd
    · exact ⟨e, List.mem_range.mpr (ControlGraph.lt_size_of_mem_predecessors hde).1, hb,
        .inr ⟨d, hde, hd⟩⟩

variable (h : (r.problem l).Solves ins outs)
include h

theorem replay_solve_eq_nil_iff :
    OccupancySolution.replay (.ofRoutine r) (r.problem l).solve = [] ↔
      ∀ b ∈ (ControlGraph.ofRoutine r).ids,
        SlotAction.replay (ins b) ((ControlGraph.ofRoutine r).trail [b]) = [] := by
  rw [OccupancySolution.replay, List.flatMap_eq_nil_iff]
  refine forall₂_congr fun b hb => ?_
  rw [ControlGraph.trail_singleton]
  have hi : (r.problem l).solve.input? b = some (ins b) := h.input? hb
  rw [hi]

theorem ending_solve_eq_nil_iff (hl : env.layout = .ok l) (hd : Declarations.faults r env = []) :
    OccupancySolution.ending (.ofRoutine r) (r.problem l).solve (.ofRoutine r) = [] ↔
      ∀ x, (∃ id ∈ Declarations.mentions r, id.name = x) →
        if (Declarations.ofRoutine r).isOutput x then
          (outs (ControlGraph.ofRoutine r).last).Held (l.leavesAt (.ofVariable x))
        else (outs (ControlGraph.ofRoutine r).last).Released (l.leavesAt (.ofVariable x)) := by
  have ho : (r.problem l).solve.output? (ControlGraph.ofRoutine r).last =
    some (outs (ControlGraph.ofRoutine r).last) := h.output? (last_mem_ids r)
  obtain ⟨hs, hc⟩ := outs_hasCauses h (last_mem_ids r)
  have hfault : ∀ x site, (∃ id ∈ Declarations.mentions r, id.name = x) →
      (OccupancySolution.endFault? (outs (ControlGraph.ofRoutine r).last) (.ofRoutine r) x site =
        none ↔ if (Declarations.ofRoutine r).isOutput x then
          (outs (ControlGraph.ofRoutine r).last).Held (l.leavesAt (.ofVariable x))
        else (outs (ControlGraph.ofRoutine r).last).Released (l.leavesAt (.ofVariable x))) := by
    intro x site hx
    obtain ⟨slot, hslot⟩ := (Layout.exists_slot_congr hs).mpr
      ((env.exists_slot_iff hl).mpr (Declarations.contains_of_faults hd hx))
    rw [OccupancySolution.endFault?_eq_none_iff hc hslot, Layout.leavesAt_congr hs]
  rw [OccupancySolution.ending, ho, List.filterMap_eq_nil_iff]
  constructor
  · intro hall x hx
    obtain ⟨e, he, rfl⟩ := List.mem_map.mp (Declarations.mem_keys_sites_iff.mpr hx)
    exact (hfault e.1 e.2 hx).mp (hall e (OccupancySolution.mem_endOrder_iff.mpr he))
  · intro hall e he
    have hx := Declarations.mem_keys_sites_iff.mp
      (List.mem_map_of_mem (OccupancySolution.mem_endOrder_iff.mp he))
    exact (hfault e.1 e.2 hx).mpr (hall e.1 hx)

theorem conflicting_of_leafAt (hb : b ∈ (ControlGraph.ofRoutine r).ids)
    (hk : (l.numberFrom 0).leafAt path = .ok k) (hh : (outs b).MayHold k) (hl : (outs b).MayLack k)
    {leaves : List ResourcePath} (hp : path ∈ leaves) :
    OccupancySolution.Conflicting (r.problem l).solve leaves b := by
  obtain ⟨hs, hc⟩ := outs_hasCauses h hb
  obtain ⟨o, ho, hm⟩ := hh
  obtain ⟨o', ho', hm'⟩ := hl
  obtain rfl := Option.some.inj (ho.symm.trans ho')
  refine ⟨outs b, h.output? hb, path, hp, o, Layout.leafAt_eq_of_shape hs hk ho, ?_⟩
  exact (Occupancy.isConflict_iff (hc o (List.mem_of_getElem? ho))).mpr ⟨hm, hm'⟩

theorem not_conflict_of_walk
    (hc : OccupancySolution.conflicts (.ofRoutine r) (r.problem l).solve (.ofRoutine r) = [])
    (hg : ControlGraph.faults r = []) (hw : (ControlGraph.ofRoutine r).Walk bs b)
    (hx : ∃ id ∈ Declarations.mentions r, id.name = path.root)
    (hk : (l.numberFrom 0).leafAt path = .ok k) :
    ¬ ((outs b).MayHold k ∧ (outs b).MayLack k) := by
  rintro ⟨hh, hl⟩
  have h0 : 0 ∈ (ControlGraph.ofRoutine r).ids := List.mem_range.mpr (ControlGraph.size_pos r)
  have hnone := (OccupancySolution.conflicts_eq_nil_iff (h.output? h0)).mp hc path.root
    (Declarations.mem_keys_sites_iff.mpr hx)
  have hpath : path ∈ (outs 0).paths.filter (·.root == path.root) :=
    List.mem_filter.mpr ⟨Layout.mem_paths_of_shape (outs_hasCauses h h0).1 hk, by simp⟩
  have hcb := conflicting_of_leafAt h hw.mem_ids hk hh hl hpath
  exact hnone (OccupancySolution.isConflict_conflictOf_iff.mpr
    (arises_of_leadsTo hg (leadsTo_of_walk hw) (.inl rfl) hcb))

theorem conflicts_solve_eq_nil
    (hno : ∀ b ∈ (ControlGraph.ofRoutine r).ids, ∀ k, ¬ ((outs b).MayHold k ∧ (outs b).MayLack k)) :
    OccupancySolution.conflicts (.ofRoutine r) (r.problem l).solve (.ofRoutine r) = [] := by
  have h0 : 0 ∈ (ControlGraph.ofRoutine r).ids := List.mem_range.mpr (ControlGraph.size_pos r)
  apply (OccupancySolution.conflicts_eq_nil_iff (h.output? h0)).mpr
  intro x _ hx
  obtain ⟨b, hb, ⟨t, ht, path, -, o, ho, hc⟩, -⟩ :=
    OccupancySolution.isConflict_conflictOf_iff.mp hx
  obtain rfl := Option.some.inj ((h.output? hb).symm.trans ht)
  obtain ⟨k, hk⟩ := List.mem_iff_getElem?.mp (Layout.mem_values_of_leafAt ho)
  obtain ⟨hh, hl⟩ :=
    (Occupancy.isConflict_iff ((outs_hasCauses h hb).2 o (List.mem_of_getElem? hk))).mp hc
  exact hno b hb k ⟨⟨o, hk, hh⟩, ⟨o, hk, hl⟩⟩

end Routine

end Reversible
