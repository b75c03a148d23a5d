import Reversible.Proofs.Graph.Splitting
import Reversible.Proofs.Verify.Findings

/-! # Snapshots around a split block

When a block is split, the first half begins with the snapshot before the block and the second half
ends with the snapshot after it. In between both know what the actions of the first half lead to.
All other blocks keep their snapshots. Either way, the snapshots of one routine give ones that
satisfy the equations of the other, and so they are the same.
-/

namespace Reversible

open ControlGraph (firstPart lastPart)

namespace Routine

variable {r : Routine} {l : Layout Ty} {i d : Nat} {x y : Ident} {u v : List Instruction}
  {pre post : List (List Instruction)} {ins outs ins' outs' : Nat → Snapshot}

theorem initialIn_firstPart (b d : Nat) (s t : Span) :
    ((r.split i x y s t).problem l).initialIn (firstPart b d) = (r.problem l).initialIn d := by
  have hfirst : firstPart b d = 0 ↔ d = 0 := ControlGraph.firstPart_eq_zero_iff
  simp only [OccupancyProblem.initialIn, problem, OccupancyProblem.ofLayout, ControlGraph.first,
    hfirst]
  rfl

section Split

variable (hg : ControlGraph.faults r = []) (h : r.Splits i x y)
  (hp : Block.Parts r.body i pre post u v) (s t : Span)
include hg h hp

omit hg h in
theorem actions_whole : (r.problem l).actions pre.length =
    u.flatMap Instruction.actions ++ v.flatMap Instruction.actions := by
  change ((ControlGraph.ofRoutine r).instructions pre.length).flatMap _ = _
  rw [ControlGraph.instructions_whole hp, List.flatMap_append]

omit hg h in
theorem transfer_whole (σ : Snapshot) : (r.problem l).transfer σ pre.length =
    (v.flatMap Instruction.actions).foldl SlotAction.apply
      ((u.flatMap Instruction.actions).foldl SlotAction.apply σ) := by
  rw [OccupancyProblem.transfer, actions_whole hp, List.foldl_append]

theorem actions_firstHalf : ((r.split i x y s t).problem l).actions pre.length =
    u.flatMap Instruction.actions := by
  change ((ControlGraph.ofRoutine (r.split i x y s t)).instructions pre.length).flatMap _ = _
  rw [ControlGraph.instructions_firstHalf hg h hp, List.flatMap_append]
  exact List.append_nil _

theorem actions_secondHalf : ((r.split i x y s t).problem l).actions (pre.length + 1) =
    v.flatMap Instruction.actions := by
  change ((ControlGraph.ofRoutine (r.split i x y s t)).instructions (pre.length + 1)).flatMap _ = _
  rw [ControlGraph.instructions_secondHalf hg h hp]
  rfl

theorem actions_split_of_ne (hd : d ≠ pre.length) :
    ((r.split i x y s t).problem l).actions (firstPart pre.length d) =
      (r.problem l).actions d := by
  change ((ControlGraph.ofRoutine (r.split i x y s t)).instructions _).flatMap _ = _
  rw [ControlGraph.instructions_split_of_ne hg h hp s t hd]
  rfl

theorem map_predecessors_firstPart (outs' : Nat → Snapshot) (d : Nat) :
    (((r.split i x y s t).problem l).graph.predecessors (firstPart pre.length d)).map outs' =
      ((r.problem l).graph.predecessors d).map fun c => outs' (lastPart pre.length c) := by
  change ((ControlGraph.ofRoutine _).predecessors _).map _ = _
  rw [ControlGraph.predecessors_firstPart hg h hp, List.map_map]
  rfl

theorem foldl_meet_secondHalf (outs' : Nat → Snapshot) :
    ((((r.split i x y s t).problem l).graph.predecessors (pre.length + 1)).map outs').foldl
        Snapshot.meet (((r.split i x y s t).problem l).initialIn (pre.length + 1)) =
      (r.problem l).blank.meet (outs' pre.length) := by
  change (((ControlGraph.ofRoutine _).predecessors _).map _).foldl _ _ = _
  rw [ControlGraph.predecessors_secondHalf hg h hp]
  rfl

theorem satisfies_split_iff : ((r.split i x y s t).problem l).Satisfies ins' outs' ↔
    (∀ d ∈ (r.problem l).graph.ids,
      ins' (firstPart pre.length d) =
        (((r.problem l).graph.predecessors d).map fun c => outs' (lastPart pre.length c)).foldl
          Snapshot.meet ((r.problem l).initialIn d) ∧
      (d ≠ pre.length →
        outs' (lastPart pre.length d) =
          (r.problem l).transfer (ins' (firstPart pre.length d)) d)) ∧
    outs' pre.length = (u.flatMap Instruction.actions).foldl SlotAction.apply (ins' pre.length) ∧
    ins' (pre.length + 1) = (r.problem l).blank.meet (outs' pre.length) ∧
    outs' (pre.length + 1) =
      (v.flatMap Instruction.actions).foldl SlotAction.apply (ins' (pre.length + 1)) := by
  have htransfer (d : Nat) (hne : d ≠ pre.length) (σ : Snapshot) :
      ((r.split i x y s t).problem l).transfer σ (firstPart pre.length d) =
        (r.problem l).transfer σ d := by
    rw [OccupancyProblem.transfer, OccupancyProblem.transfer, actions_split_of_ne hg h hp s t hne]
  constructor
  · intro hs
    have hfirst := hs _ ((ControlGraph.firstPart_mem_ids_iff hg h hp s t).mpr
      (ControlGraph.length_mem_ids hp))
    have hsecond := hs _ ((ControlGraph.lastPart_mem_ids_iff hg h hp s t).mpr
      (ControlGraph.length_mem_ids hp))
    rw [ControlGraph.firstPart_self, OccupancyProblem.transfer, actions_firstHalf hg h hp] at hfirst
    rw [ControlGraph.lastPart_self, foldl_meet_secondHalf hg h hp, OccupancyProblem.transfer,
      actions_secondHalf hg h hp] at hsecond
    refine ⟨fun d hd => ?_, hfirst.2, hsecond.1, hsecond.2⟩
    obtain ⟨hin, hout⟩ := hs _ ((ControlGraph.firstPart_mem_ids_iff hg h hp s t).mpr hd)
    rw [map_predecessors_firstPart hg h hp, initialIn_firstPart] at hin
    refine ⟨hin, fun hne => ?_⟩
    rw [ControlGraph.lastPart_of_ne hne, hout, htransfer d hne]
  · rintro ⟨hblocks, hmid, hin, hout⟩ e he
    rcases ControlGraph.eq_or_firstPart_whole pre.length e with rfl | heq
    · rw [foldl_meet_secondHalf hg h hp, OccupancyProblem.transfer, actions_secondHalf hg h hp]
      exact ⟨hin, hout⟩
    · generalize ControlGraph.whole pre.length e = d at heq
      subst heq
      obtain ⟨hin', hout'⟩ := hblocks d ((ControlGraph.firstPart_mem_ids_iff hg h hp s t).mp he)
      rw [map_predecessors_firstPart hg h hp, initialIn_firstPart]
      refine ⟨hin', ?_⟩
      by_cases hne : d = pre.length
      · rw [hne, ControlGraph.firstPart_self, hmid, OccupancyProblem.transfer,
          actions_firstHalf hg h hp]
      · rw [htransfer d hne, ← hout' hne, ControlGraph.lastPart_of_ne hne]

theorem satisfies_split (hs : (r.problem l).Satisfies ins outs)
    (hblank : (r.problem l).blank.Le (ins pre.length)) :
    ((r.split i x y s t).problem l).Satisfies
      (fun e => if e = pre.length + 1 then
        (u.flatMap Instruction.actions).foldl SlotAction.apply (ins pre.length)
        else ins (ControlGraph.whole pre.length e))
      (fun e => if e = pre.length then
        (u.flatMap Instruction.actions).foldl SlotAction.apply (ins pre.length)
        else outs (ControlGraph.whole pre.length e)) := by
  have hmid : ((r.split i x y s t).problem l).blank.Le
      (((r.split i x y s t).problem l).transfer (ins pre.length) pre.length) :=
    OccupancyProblem.blank_le_transfer hblank
  rw [OccupancyProblem.transfer, actions_firstHalf hg h hp] at hmid
  have hself : ControlGraph.whole pre.length pre.length = pre.length := if_pos (Nat.le_refl _)
  have hnext : ControlGraph.whole pre.length (pre.length + 1) = pre.length :=
    if_neg (Nat.not_succ_le_self _)
  refine (satisfies_split_iff hg h hp s t).mpr ⟨fun d hd => ?_, ?_, ?_, ?_⟩
  · simp only [ControlGraph.firstPart_ne, ControlGraph.lastPart_ne, if_false,
      ControlGraph.whole_firstPart, ControlGraph.whole_lastPart]
    exact ⟨(hs d hd).1, fun _ => (hs d hd).2⟩
  · rw [if_pos rfl, if_neg (Nat.ne_of_lt (Nat.lt_succ_self _)), hself]
  · rw [if_pos rfl, if_pos rfl]
    exact (Snapshot.le_iff_meet.mp hmid).symm
  · rw [if_neg (Nat.succ_ne_self _), if_pos rfl, hnext,
      (hs _ (ControlGraph.length_mem_ids hp)).2, transfer_whole hp]

theorem satisfies_of_split (hs : ((r.split i x y s t).problem l).Satisfies ins' outs')
    (hblank : (r.problem l).blank.Le (outs' pre.length)) :
    (r.problem l).Satisfies (fun d => ins' (firstPart pre.length d))
      fun d => outs' (lastPart pre.length d) := by
  obtain ⟨hblocks, hmid, hin, hout⟩ := (satisfies_split_iff hg h hp s t).mp hs
  intro d hd
  refine ⟨(hblocks d hd).1, ?_⟩
  by_cases hne : d = pre.length
  · dsimp only
    rw [hne, ControlGraph.lastPart_self, ControlGraph.firstPart_self, transfer_whole hp, hout, hin,
      Snapshot.le_iff_meet.mp hblank, hmid]
  · exact (hblocks d hd).2 hne

/-- The solver gives the two halves the snapshots before and after the block, and between them the
snapshot that the actions of the first half lead to. It gives the other blocks the same snapshots
as before. -/
theorem solution_split (hs : (r.problem l).Solves ins outs)
    (hs' : ((r.split i x y s t).problem l).Solves ins' outs') :
    (∀ d ∈ (r.problem l).graph.ids, ins' (firstPart pre.length d) = ins d ∧
      outs' (lastPart pre.length d) = outs d) ∧
    outs' pre.length =
      (u.flatMap Instruction.actions).foldl SlotAction.apply (ins pre.length) ∧
    ins' (pre.length + 1) = outs' pre.length := by
  have hlink := ControlGraph.mem_successors_of_mem_predecessors hg
  have hlink' := ControlGraph.mem_successors_of_mem_predecessors
    (ControlGraph.runsOf_split hg h hp s t).2
  have hwhole := ControlGraph.length_mem_ids hp
  have hfirst := (ControlGraph.firstPart_mem_ids_iff hg h hp s t).mpr hwhole
  rw [ControlGraph.firstPart_self] at hfirst
  have hin : (r.problem l).blank.Le (ins pre.length) :=
    (hs.of_closed hwhole (OccupancyProblem.lawful_blank_le hlink).closed).1
  have hout : (r.problem l).blank.Le (outs' pre.length) :=
    (hs'.of_closed hfirst (OccupancyProblem.lawful_blank_le hlink').closed).2
  have hparts : ∀ d ∈ (r.problem l).graph.ids, ins' (firstPart pre.length d) = ins d ∧
      outs' (lastPart pre.length d) = outs d := by
    intro d hd
    -- either solution is a candidate for the other problem, where the solver gives the least one
    have hbelow := hs.le_of_satisfies hlink (satisfies_of_split hg h hp s t hs'.satisfies hout) hd
    have habove := fun e he => hs'.le_of_satisfies hlink'
      (satisfies_split hg h hp s t hs.satisfies hin) (b := e) he
    have hfirst := (habove _ ((ControlGraph.firstPart_mem_ids_iff hg h hp s t).mpr hd)).1
    have hlast := (habove _ ((ControlGraph.lastPart_mem_ids_iff hg h hp s t).mpr hd)).2
    rw [if_neg (ControlGraph.firstPart_ne _ d), ControlGraph.whole_firstPart] at hfirst
    rw [if_neg (ControlGraph.lastPart_ne _ d), ControlGraph.whole_lastPart] at hlast
    exact ⟨hfirst.antisymm hbelow.1, hlast.antisymm hbelow.2⟩
  obtain ⟨-, hmid, hnext, -⟩ := (satisfies_split_iff hg h hp s t).mp hs'.satisfies
  have hbefore := (hparts _ hwhole).1
  rw [ControlGraph.firstPart_self] at hbefore
  rw [hmid, hbefore, hnext, Snapshot.le_iff_meet.mp hout, hmid, hbefore]
  exact ⟨hparts, rfl, rfl⟩

end Split

end Routine

end Reversible
