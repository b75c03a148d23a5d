import Reversible.Proofs.Verify.Presence

/-! # Reads of an accepted routine

An instruction reads its operands and follows its references after it has finalized what it destroys
and before it initializes what it creates. In a routine that is accepted, the slots that operands
name are initialized at that point, and so are the slots under all memory that is created or
destroyed. Memory inside an operand is not looked at: the slot under it may be in any state.
-/

namespace Reversible

namespace Instruction

variable {i : Instruction} {e : Expr}

theorem mem_followed {m : Memory} (he : e ∈ i.created ++ i.destroyed) (hm : m ∈ e.memories) :
    .reading m.base.path m.base.span ∈ i.followed :=
  List.mem_map.mpr ⟨m, List.mem_flatMap.mpr ⟨e, he, hm⟩, rfl⟩

theorem exists_mem_reads {path : ResourcePath} (he : e ∈ i.operands) (hp : path ∈ e.resourcePaths) :
    ∃ span, .reading path span ∈ i.reads := by
  unfold operands at he
  split at he
  · next modifier _ =>
    refine ⟨modifier.span, List.mem_map_of_mem ?_⟩
    exact SortedSet.mem_ofList.mpr (List.mem_flatMap.mpr ⟨e, he, hp⟩)
  · next condition _ =>
    refine ⟨condition.span, List.mem_map_of_mem ?_⟩
    exact SortedSet.mem_ofList.mpr (List.mem_flatMap.mpr ⟨e, he, hp⟩)
  · cases he

end Instruction

/-- The snapshot in which an instruction reads, if a replay comes to it from `s` through the
instructions `before`: its finalizations are done, its initializations are not. -/
def Snapshot.midway (s : Snapshot) (before : List Instruction) (i : Instruction) : Snapshot :=
  SlotAction.replayed s (before.flatMap Instruction.actions ++ i.finalizations)

namespace Routine

variable {r : Routine} {env : Environment} {config : QueueConfig} {l : Layout Ty}
  {ins outs : Nat → Snapshot} {i : Instruction} {before after : List Instruction} {b : Nat}
  {path : ResourcePath} {span : Span}

theorem Accepted.exists_slot_of_mem_memories (h : r.Accepted env config l ins outs)
    (hi : i ∈ r.body) {e : Expr} {m : Memory} (he : e ∈ i.created ++ i.destroyed)
    (hm : m ∈ e.memories) : ∃ slot, l.slot m.base.path = .ok slot := by
  have hrole : ∃ role, m ∈ i.memories role := by
    rcases List.mem_append.mp he with he | he
    · exact ⟨.created, List.mem_flatMap.mpr ⟨e, he, hm⟩⟩
    · exact ⟨.destroyed, List.mem_flatMap.mpr ⟨e, he, hm⟩⟩
  obtain ⟨role, hm⟩ := hrole
  obtain ⟨base, hb⟩ := h.exists_reference hi hm
  rw [← m.resource_path]
  exact ⟨_, Layout.slot_eq_ok_iff.mpr (Layout.leafAt_eq_ok_iff.mp hb)⟩

namespace Accepted

variable (h : r.Accepted env config l ins outs) (hb : b ∈ (ControlGraph.ofRoutine r).ids)
  (hi : (ControlGraph.ofRoutine r).instructions b = before ++ i :: after)
include h hb hi

theorem replay_midway :
    SlotAction.replay (ins b) (before.flatMap Instruction.actions ++ i.finalizations) = [] ∧
    SlotAction.replay ((ins b).midway before i) (i.followed ++ i.reads) = [] := by
  have hr := h.replay_eq b hb
  have htrail : (ControlGraph.ofRoutine r).trail [b] =
      (before.flatMap Instruction.actions ++ i.finalizations) ++ ((i.followed ++ i.reads) ++
        (i.initializations ++ after.flatMap Instruction.actions)) := by
    rw [ControlGraph.trail_singleton, hi, List.flatMap_append, List.flatMap_cons,
      Instruction.actions]
    simp only [List.append_assoc]
  rw [htrail] at hr
  obtain ⟨hfin, hrest⟩ := SlotAction.replay_prefix hr
  exact ⟨hfin, (SlotAction.replay_prefix hrest).1⟩

theorem shape_midway : Layout.shape ((ins b).midway before i) = l.shape := by
  rw [Snapshot.midway, SlotAction.replayed_eq (h.replay_midway hb hi).1,
    SlotAction.shape_foldl_apply, (ins_hasCauses h.solves hb).1]

theorem exists_isInitialized_midway (ha : .reading path span ∈ i.followed ++ i.reads)
    (hslot : ∃ slot, l.slot path = .ok slot) :
    ∃ state, ((ins b).midway before i).read path = .ok state ∧ state.isInitialized := by
  obtain ⟨slot, hslot⟩ := (Layout.exists_slot_congr (h.shape_midway hb hi)).mpr hslot
  obtain ⟨state, hread⟩ := Snapshot.exists_read hslot
  have hreading : ∀ a ∈ i.followed ++ i.reads, a.isReading := by
    intro a ha
    rcases List.mem_append.mp ha with ha | ha
    · exact Instruction.isReading_of_mem_followed ha
    · exact Instruction.isReading_of_mem_reads ha
  have hf := SlotAction.fault?_of_replay hreading (h.replay_midway hb hi).2 _ ha
  exact ⟨state, hread, SlotAction.isInitialized_of_fault? hf hread⟩

end Accepted

/-- If nothing is reported for a routine, then wherever one of its instructions reads, the slot
under each memory expression that occurs in what it creates or destroys is there and initialized,
and so is each slot of the layout that occurs in its operands. -/
theorem reads_initialized (h : (r.verify env config).diagnostics = []) :
    ∃ l, env.layout = .ok l ∧ ∀ b ∈ (ControlGraph.ofRoutine r).ids,
      ∃ s, (r.verify env config).before? b = some s ∧ ∀ before i after,
        (ControlGraph.ofRoutine r).instructions b = before ++ i :: after →
        (∀ e ∈ i.created ++ i.destroyed, ∀ m, Expr.Occurs (.memory m) e →
          ∃ state, (s.midway before i).read m.base.path = .ok state ∧ state.isInitialized) ∧
        ∀ e ∈ i.operands, ∀ place, Expr.Occurs (.storage place) e →
          (∃ slot, l.slot place.path = .ok slot) →
          ∃ state, (s.midway before i).read place.path = .ok state ∧ state.isInitialized := by
  obtain ⟨l, ins, outs, ha⟩ := exists_accepted h
  refine ⟨l, ha.layout_eq, fun b hb => ⟨ins b, ha.before?_eq hb, fun before i after hi => ?_⟩⟩
  have hbody : i ∈ r.body := by
    have hmem : i ∈ (ControlGraph.ofRoutine r).instructions b := by simp [hi]
    exact ControlGraph.mem_body_of_mem_instructions hmem
  constructor
  · intro e he m hm
    have hm := Expr.mem_memories_iff.mpr hm
    have hslot := ha.exists_slot_of_mem_memories hbody he hm
    exact ha.exists_isInitialized_midway hb hi
      (List.mem_append_left _ (Instruction.mem_followed he hm)) hslot
  · intro e he place hp hslot
    obtain ⟨span, hmem⟩ :=
      Instruction.exists_mem_reads he (Expr.mem_resourcePaths_iff.mpr ⟨place, hp, rfl⟩)
    exact ha.exists_isInitialized_midway hb hi (List.mem_append_right _ hmem) hslot

end Routine

namespace Stale

open Sample (span slot)
open Astray (cell env)

/-- Add `x` to the number behind `p`. -/
def bump : Instruction :=
  .assign (cell 4) (cell 5) (some ⟨.add, .value (slot "x" 6), span 6⟩) (span 4)

/-- Let go of the reference in `p`. -/
def drop : Instruction := .assign (.null (span 7)) (slot "p" 8) none (span 7)

/-- Add the number behind `p` on the way from `x` to `y`. -/
def move : Instruction :=
  .assign (slot "y" 9) (slot "x" 10) (some ⟨.add, .value (cell 11), span 11⟩) (span 9)

def routine : Routine where
  id := ⟨"stale", span 0⟩
  inputs := [⟨⟨"p", span 1⟩, none, span 1⟩, ⟨⟨"x", span 2⟩, none, span 2⟩]
  outputs := [⟨⟨"y", span 3⟩, none, span 3⟩]
  body := [bump, drop, move]
  span := span 0

theorem accepted : (routine.verify env .standard).diagnostics = [] := by decide +kernel

/-- The first instruction follows `p` and reads `x` while both are initialized. -/
theorem reads_initialized_stale : (routine.verify env .standard).diagnostics = [] ∧
    ∃ s, (routine.verify env .standard).before? 0 = some s ∧
      (∃ state, (s.midway [] bump).read (.ofVariable "p") = .ok state ∧ state.isInitialized) ∧
      ∃ state, (s.midway [] bump).read (.ofVariable "x") = .ok state ∧ state.isInitialized := by
  obtain ⟨l, hl, hblocks⟩ := Routine.reads_initialized accepted
  obtain rfl := Except.ok.inj (Astray.layout_eq.symm.trans hl)
  obtain ⟨s, hs, hreads⟩ := hblocks 0 (by decide +kernel)
  obtain ⟨hfollowed, hoperands⟩ := hreads [] bump [drop, move] rfl
  refine ⟨accepted, s, hs, ?_, ?_⟩
  · exact hfollowed (cell 4) (by simp [bump, Instruction.created]) _ .here
  · exact hoperands (slot "x" 6) (by simp [bump, Instruction.operands, Arithmetic.operands]) _ .here
      ⟨_, rfl⟩

end Stale

/-- Memory can occur in an operand of an accepted routine while the slot under it is finalized. -/
theorem Routine.reads_stale : (Stale.routine.verify Astray.env .standard).diagnostics = [] ∧
    (ControlGraph.ofRoutine Stale.routine).instructions 0 =
      [Stale.bump, Stale.drop] ++ Stale.move :: [] ∧
    Astray.cell 11 ∈ Stale.move.operands ∧
    ∃ s, (Stale.routine.verify Astray.env .standard).before? 0 = some s ∧
      (s.midway [Stale.bump, Stale.drop] Stale.move).read (.ofVariable "p") =
        .ok (.finalizedAt (Sample.span 8)) := by
  have hread : ((Stale.routine.verify Astray.env .standard).before? 0).map (fun s =>
      (s.midway [Stale.bump, Stale.drop] Stale.move).read (.ofVariable "p")) =
        some (.ok (.finalizedAt (Sample.span 8))) := by
    decide +kernel
  obtain ⟨s, hs, hp⟩ := Option.map_eq_some_iff.mp hread
  exact ⟨Stale.accepted, rfl, by simp [Stale.move, Instruction.operands, Arithmetic.operands], s,
    hs, hp⟩

end Reversible
