import Mathlib.Data.Finset.Card
import Reversible.Proofs.Occupancy.Routes
import Reversible.Proofs.Verify.Agreement

/-! # Silence means no conflict

A conflict is reported where it arises: in a block that no conflicting block leads to, or that some
block without conflict leads to. A conflict among blocks that no walk reaches need not arise
anywhere in that sense, since all blocks that lead to them may be in conflict too. But then some of
these blocks operates on a leaf that is in conflict already, and that is reported when the block is
replayed. So if nothing is reported, no leaf is in conflict before or after any block.
-/

namespace Reversible

namespace SlotAction

variable {s : Snapshot} {a : SlotAction} {acts : List SlotAction} {l : Layout Ty} {k : Nat}

theorem not_fits_of_conflicts (hs : s.HasCauses) (hc : s.Conflicts k)
    (hk : k ∈ Layout.leavesAt s a.path) : ¬ a.Fits s := by
  obtain ⟨o, ho, hc⟩ := hc
  obtain ⟨hh, hl⟩ := (Occupancy.isConflict_iff (hs o (List.mem_of_getElem? ho))).mp hc
  cases a with
  | finalizing path span => exact fun hf => hf.2 k hk ⟨o, ho, hl⟩
  | reading path span => exact fun hf => hf.2 k hk ⟨o, ho, hl⟩
  | initializing path span => exact fun hf => hf k hk ⟨o, ho, hh⟩

theorem not_mem_leavesAt_of_replay (hs : s.HasCauses) (hl : Layout.shape s = l.shape)
    (hc : s.Conflicts k) (hr : replay s acts = []) : ∀ a ∈ acts, k ∉ l.leavesAt a.path := by
  induction acts generalizing s with
  | nil => simp
  | cons a acts ih =>
    obtain ⟨hf, hr⟩ := replay_cons_eq_nil_iff.mp hr
    rw [List.forall_mem_cons]
    constructor
    · intro hk
      rw [← Layout.leavesAt_congr hl] at hk
      exact not_fits_of_conflicts hs hc hk (fits_of_fault? hs hk hf)
    · exact ih (hasCauses_apply a hs) ((shape_apply s a).trans hl)
        (Snapshot.conflicts_apply_iff.mpr hc) hr

theorem getElem?_values_apply_of_operationOn? (hs : Layout.shape s = l.shape)
    (ha : a.operationOn? l k = none) : (a.apply s).values[k]? = s.values[k]? := by
  by_cases hk : k ∈ l.leavesAt a.path
  · rw [operationOn?, if_pos hk] at ha
    cases a with
    | reading path span => rfl
    | _ => cases ha
  · exact getElem?_values_apply_of_not_mem (by rwa [Layout.leavesAt_congr hs])

theorem getElem?_values_foldl_apply_of_operationOn? (hs : Layout.shape s = l.shape)
    (ha : ∀ a ∈ acts, a.operationOn? l k = none) :
    (acts.foldl apply s).values[k]? = s.values[k]? := by
  induction acts generalizing s with
  | nil => rfl
  | cons a acts ih =>
    obtain ⟨ha, hacts⟩ := List.forall_mem_cons.mp ha
    rw [List.foldl_cons, ih ((shape_apply s a).trans hs) hacts,
      getElem?_values_apply_of_operationOn? hs ha]

end SlotAction

namespace Routine

open Relation (ReflTransGen)

variable {r : Routine} {env : Environment} {config : QueueConfig} {l : Layout Ty}
  {ins outs : Nat → Snapshot} {b k : Nat} {path : ResourcePath} {s : OccupancySolution}
  {t : Snapshot}

theorem occupancyPass_of_some (hl : env.layout = .ok l) (hs : (r.occupancyPass env).1 = some s) :
    s = (r.problem l).solve ∧ (r.occupancyPass env).2 =
      (OccupancySolution.faults (.ofRoutine r) (r.problem l).solve (.ofRoutine r)).map
        (·.diagnostic) := by
  cases hp : r.occupancyProblem env with
  | error e => simp [occupancyPass, hp] at hs
  | ok p =>
    obtain ⟨l', hl', rfl⟩ := exists_layout_of_occupancyProblem hp
    obtain rfl := Except.ok.inj (hl.symm.trans hl')
    simp only [occupancyPass, hp] at hs ⊢
    exact ⟨(Option.some.inj hs).symm, rfl⟩

theorem LeadsTo.of_predecessor {c d : Nat} (h : r.LeadsTo c b)
    (hd : d ∈ (ControlGraph.ofRoutine r).predecessors c) : r.LeadsTo d b :=
  .head hd h

theorem LeadsTo.mem_ids {c : Nat} (h : r.LeadsTo c b) (hb : b ∈ (ControlGraph.ofRoutine r).ids) :
    c ∈ (ControlGraph.ofRoutine r).ids := by
  rcases ReflTransGen.cases_head h with rfl | ⟨d, hd, -⟩
  · exact hb
  · exact OccupancyProblem.mem_ids_of_mem_predecessors hd

/-- A leaf that no block on the way to `b` operates on is not finalized when `b` ends. -/
theorem not_mayLack_of_operationOn? (h : (r.problem l).Solves ins outs)
    (hb : b ∈ (ControlGraph.ofRoutine r).ids)
    (hop : ∀ c, r.LeadsTo c b → ∀ a ∈ (r.problem l).actions c, a.operationOn? l k = none) :
    ¬ (outs b).MayLack k := by
  have hC := closed_hasCauses (r := r) (l := l)
  have hclosed : (r.problem l).flow.Closed
      (fun c s => (Layout.shape s = l.shape ∧ s.HasCauses) ∧ (r.LeadsTo c b → ¬ s.MayLack k))
      (fun c s => (Layout.shape s = l.shape ∧ s.HasCauses) ∧ (r.LeadsTo c b → ¬ s.MayLack k)) := by
    constructor
    · intro c hc
      refine ⟨hC.input c hc, fun _ => ?_⟩
      change ¬ ((r.problem l).initialIn c).MayLack k
      rw [OccupancyProblem.initialIn]
      split
      · exact not_mayLack_entry
      · exact not_mayLack_blank
    · intro c hc
      exact ⟨hC.output c hc, fun _ => not_mayLack_blank⟩
    · rintro c d s t hc hd hdc ⟨hs, hsk⟩ ⟨ht, htk⟩
      refine ⟨hC.combine c d s t hc hd hdc hs ht, fun hcb hk => ?_⟩
      rcases Snapshot.mayLack_or_of_meet (hs.1.trans ht.1.symm) hk with hk | hk
      · exact hsk hcb hk
      · exact htk (hcb.of_predecessor hdc) hk
    · rintro c s hc ⟨hs, hsk⟩
      refine ⟨hC.transfer c s hc hs, fun hcb hk => hsk hcb ?_⟩
      obtain ⟨o, ho, hm⟩ := hk
      refine ⟨o, ?_, hm⟩
      rw [← ho]
      exact (SlotAction.getElem?_values_foldl_apply_of_operationOn? hs.1 (hop c hcb)).symm
  exact (h.of_closed hb hclosed).2.2 .refl

section Solution

variable (h : (r.problem l).Solves ins outs)
include h

theorem conflicts_of_leadsTo (hg : ControlGraph.faults r = []) {c : Nat} (hcb : r.LeadsTo c b)
    (hc : (outs c).Conflicts k) : (outs b).Conflicts k := by
  induction hcb with
  | refl => exact hc
  | @tail d e _ hde ih =>
    have he : e ∈ (ControlGraph.ofRoutine r).ids :=
      List.mem_range.mpr (ControlGraph.lt_size_of_mem_predecessors hde).1
    rw [← conflicts_ins_iff h he]
    exact ih.mono (outs_le_ins h hg hde).1 (outs_le_ins h hg hde).2

/-- Among the blocks that lead to a conflicting one there is one without the conflict, if replaying
the blocks finds no fault. -/
theorem exists_leadsTo_not_conflicts
    (hr : OccupancySolution.replay (.ofRoutine r) (r.problem l).solve = [])
    (hb : b ∈ (ControlGraph.ofRoutine r).ids) (hc : (outs b).Conflicts k) :
    ∃ c, r.LeadsTo c b ∧ ¬ (outs c).Conflicts k := by
  by_contra hall
  push Not at hall
  obtain ⟨d, o, ho, hd⟩ := hc.exists_hasCause (outs_hasCauses h hb).2 .finalization
  refine not_mayLack_of_operationOn? h hb (fun c hcb a ha => ?_) ⟨o, ho, d, hd⟩
  have hcids := hcb.mem_ids hb
  obtain ⟨hs, hcauses⟩ := ins_hasCauses h hcids
  have hrep := (replay_solve_eq_nil_iff h).mp hr c hcids
  rw [ControlGraph.trail_singleton] at hrep
  refine if_neg (SlotAction.not_mem_leavesAt_of_replay hcauses hs ?_ hrep a ha)
  exact (conflicts_ins_iff h hcids).mpr (hall c hcb)

/-- Blocks that conflicts always come to from other such blocks are none at all. Going back, there
would be fewer and fewer leaves in conflict. -/
theorem not_of_conflicts_of_predecessors (hg : ControlGraph.faults r = [])
    (hr : OccupancySolution.replay (.ofRoutine r) (r.problem l).solve = []) {S : Nat → Prop}
    (hS : ∀ b, S b → b ∈ (ControlGraph.ofRoutine r).ids ∧ ∃ k, (outs b).Conflicts k)
    (hpred : ∀ b, S b → ∀ c ∈ (ControlGraph.ofRoutine r).predecessors b, S c) (b : Nat) :
    ¬ S b := by
  classical
  let leaves (b : Nat) : Finset Nat :=
    {k ∈ Finset.range (outs b).values.length | (outs b).Conflicts k}
  have hleaves : ∀ {b k}, k ∈ leaves b ↔ (outs b).Conflicts k := by
    intro b k
    rw [Finset.mem_filter, Finset.mem_range, and_iff_right_iff_imp]
    rintro ⟨o, ho, -⟩
    exact (List.getElem?_eq_some_iff.mp ho).1
  induction hn : (leaves b).card using Nat.strong_induction_on generalizing b with
  | _ n ih =>
    intro hb
    obtain ⟨hids, k, hk⟩ := hS b hb
    obtain ⟨c, hcb, hck⟩ := exists_leadsTo_not_conflicts h hr hids hk
    have hc : S c := by
      clear hck
      induction hcb using ReflTransGen.head_induction_on with
      | refl => exact hb
      | head hdc _ ih => exact hpred _ ih _ hdc
    have hlt : leaves c ⊂ leaves b := by
      rw [Finset.ssubset_iff_of_subset]
      · exact ⟨k, hleaves.mpr hk, fun hmem => hck (hleaves.mp hmem)⟩
      · intro k' hk'
        exact hleaves.mpr (conflicts_of_leadsTo h hg hcb (hleaves.mp hk'))
    exact ih _ (hn ▸ Finset.card_lt_card hlt) c rfl hc

/-- If no conflict and no fault of an action is reported, the leaves of declared variables are not
in conflict. -/
theorem not_conflicts_of_mention (hg : ControlGraph.faults r = [])
    (hc : OccupancySolution.conflicts (.ofRoutine r) (r.problem l).solve (.ofRoutine r) = [])
    (hr : OccupancySolution.replay (.ofRoutine r) (r.problem l).solve = [])
    (hb : b ∈ (ControlGraph.ofRoutine r).ids) (hk : (l.numberFrom 0).leafAt path = .ok k)
    (hx : ∃ id ∈ Declarations.mentions r, id.name = path.root) : ¬ (outs b).Conflicts k := by
  rintro ⟨o, ho, hconf⟩
  have h0 : 0 ∈ (ControlGraph.ofRoutine r).ids := List.mem_range.mpr (ControlGraph.size_pos r)
  have hnone := (OccupancySolution.conflicts_eq_nil_iff (h.output? h0)).mp hc path.root
    (Declarations.mem_keys_sites_iff.mpr hx)
  rw [OccupancySolution.isConflict_conflictOf_iff] at hnone
  -- the blocks in which some leaf of the variable is in conflict, this leaf or another one
  refine not_of_conflicts_of_predecessors h hg hr
    (S := fun b => b ∈ (ControlGraph.ofRoutine r).ids ∧
      OccupancySolution.Conflicting (r.problem l).solve
        ((outs 0).paths.filter (·.root == path.root)) b) ?_ ?_ b ⟨hb, ?_⟩
  · rintro c ⟨hids, t, ht, p, -, o, ho, hconf⟩
    obtain rfl := Option.some.inj ((h.output? hids).symm.trans ht)
    obtain ⟨k, hk⟩ := List.mem_iff_getElem?.mp (Layout.mem_values_of_leafAt ho)
    exact ⟨hids, k, o, hk, hconf⟩
  · rintro c ⟨hids, hconf⟩ d hd
    refine ⟨OccupancyProblem.mem_ids_of_mem_predecessors hd, ?_⟩
    by_contra hno
    exact hnone ⟨c, hids, hconf, .inr ⟨d, hd, hno⟩⟩
  · have hs := (outs_hasCauses h hb).1
    refine ⟨outs b, h.output? hb, path, ?_, o, Layout.leafAt_eq_of_shape hs hk ho, hconf⟩
    exact List.mem_filter.mpr ⟨Layout.mem_paths_of_shape (outs_hasCauses h h0).1 hk, by simp⟩

theorem exists_mention_of_conflicts (hb : b ∈ (ControlGraph.ofRoutine r).ids)
    (hk : (l.numberFrom 0).leafAt path = .ok k) (hc : (outs b).Conflicts k) :
    ∃ id ∈ Declarations.mentions r, id.name = path.root := by
  by_contra hno
  obtain ⟨d, o, ho, hd⟩ := hc.exists_hasCause (outs_hasCauses h hb).2 .finalization
  refine not_mayLack_of_operationOn? h hb (fun c _ a ha => ?_) ⟨o, ho, d, hd⟩
  have hnil : r.history l [c] k = [] := by
    by_contra hop
    exact hno (exists_mention_of_leafAt hk hop)
  rw [history_eq, ControlGraph.trail_singleton] at hnil
  exact List.filterMap_eq_nil_iff.mp (List.append_eq_nil_iff.mp hnil).2 a ha

end Solution

/-- If the analysis of occupancy has a solution and reports nothing, no leaf is in conflict before
or after any block, whether or not a walk reaches the block. -/
theorem not_conflicts_of_silent (hg : ControlGraph.faults r = []) (hl : env.layout = .ok l)
    (hn : l.DistinctMembers) (hs : (r.occupancyPass env).1 = some s)
    (hq : (Queue.ofList config (r.occupancyPass env).2).flushed = [])
    (ht : s.input? b = some t ∨ s.output? b = some t) (k : Nat) : ¬ t.Conflicts k := by
  obtain ⟨rfl, hfaults⟩ := occupancyPass_of_some hl hs
  rw [Queue.flushed_ofList_eq_nil_iff, hfaults, List.map_eq_nil_iff,
    OccupancySolution.faults_eq_nil_iff] at hq
  obtain ⟨hc, hr, -⟩ := hq
  obtain ⟨ins, outs, h⟩ := r.exists_solves_problem l hg
  have houts : ∀ b ∈ (ControlGraph.ofRoutine r).ids, ¬ (outs b).Conflicts k := by
    intro b hb hk
    have hlt : k < l.values.length := by
      obtain ⟨o, ho, -⟩ := hk
      rw [← Layout.length_values_congr (outs_hasCauses h hb).1]
      exact (List.getElem?_eq_some_iff.mp ho).1
    have hnames : l.names.Nodup := env.names_layout hl ▸ NameMap.nodup_keys _
    obtain ⟨path, hpath⟩ := Layout.exists_leafAt_eq hnames hn hlt
    have hx := exists_mention_of_conflicts h hb hpath hk
    exact not_conflicts_of_mention h hg hc hr hb hpath hx hk
  rcases ht with ht | ht
  · rw [h.input?_eq] at ht
    obtain ⟨hb, ht⟩ := Option.ite_none_right_eq_some.mp ht
    obtain rfl := Option.some.inj ht
    exact fun hk => houts b hb ((conflicts_ins_iff h hb).mp hk)
  · rw [h.output?_eq] at ht
    obtain ⟨hb, ht⟩ := Option.ite_none_right_eq_some.mp ht
    obtain rfl := Option.some.inj ht
    exact houts b hb

end Routine

namespace Aside

open Sample (span slot member)

/-- Two blocks that no walk reaches fill `t` and empty it by turns. -/
def routine : Routine where
  id := ⟨"aside", span 0⟩
  inputs := []
  outputs := []
  body := [
    .jump .forward ⟨"leave", span 1⟩ (span 1),
    .jump .backward ⟨"fill", span 2⟩ (span 2),
    .assignMany [member "t" "x" 3, member "t" "y" 4] [] (span 3),
    .jump .forward ⟨"empty", span 5⟩ (span 5),
    .jump .backward ⟨"empty", span 6⟩ (span 6),
    .assignMany [] [slot "t" 7] (span 7),
    .jump .forward ⟨"fill", span 8⟩ (span 8),
    .jump .backward ⟨"leave", span 9⟩ (span 9),
    .assignMany [slot "t" 10] [] (span 10),
    .assignMany [] [slot "t" 11] (span 11)]
  span := span 0

def env : Environment where
  types := ∅
  vars := (∅ : NameMap Ty).insert "t" Carry.pair

def layout : Layout Ty := .node "t" Carry.pairLayout .nil

theorem not_conflicts_aside :
    ControlGraph.faults routine = [] ∧ env.layout = .ok layout ∧ layout.DistinctMembers ∧
      (Queue.ofList .standard (routine.occupancyPass env).2).flushed = [] ∧
      ∃ s t, (routine.occupancyPass env).1 = some s ∧ s.input? 2 = some t ∧
        ∀ k, ¬ t.Conflicts k := by
  have hg : ControlGraph.faults routine = [] := by decide +kernel
  have hl : env.layout = .ok layout := by decide +kernel
  have hn : layout.DistinctMembers := ⟨by decide, trivial, trivial⟩
  have hq : (Queue.ofList .standard (routine.occupancyPass env).2).flushed = [] := by
    decide +kernel
  have hsome : ((routine.occupancyPass env).1.bind (·.input? 2)).isSome := by decide +kernel
  obtain ⟨t, ht⟩ := Option.isSome_iff_exists.mp hsome
  obtain ⟨s, hs, ht⟩ := Option.bind_eq_some_iff.mp ht
  exact ⟨hg, hl, hn, hq, s, t, hs, ht, Routine.not_conflicts_of_silent hg hl hn hs hq (.inl ht)⟩

end Aside

end Reversible
