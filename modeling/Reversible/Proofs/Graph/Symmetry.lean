import Reversible.Proofs.Graph.Links
import Reversible.Proofs.Syntax.Sample

/-! # The two sides of an edge

A block finds the blocks before it by the labels of its entry point, and the blocks after it by
those of its exit point. In a graph without faults the two sides agree on every edge out of a block
that is not the last one. The labels of the last exit point link nothing, so no block has the last
one before it. But they are looked up like all others: if one of them also stands in an entry point,
the last block has a block after it that does not know of the edge.
-/

namespace Reversible

namespace ControlGraph

variable {g : ControlGraph} {r : Routine} {a b : Nat}

/-- The labels of the exit point that a routine ends with. -/
def closingLabels (g : ControlGraph) : List Ident :=
  match g.blocks[g.last]? with
  | none => []
  | some b => b.exitLabels

theorem mem_predecessors_of_mem_successors (h : g.repeatedLabels = []) (ha : a + 1 < g.size)
    (hb : b ∈ g.successors a) : a ∈ g.predecessors b := by
  obtain ⟨c, hc, x, hx, hxb⟩ := mem_successors_iff.mp hb
  obtain ⟨s, hs, hrole, hname, rfl⟩ := exists_site_of_blockOf? hxb
  obtain ⟨d, hd, hlabel, -⟩ := mem_labelSites_iff.mp hs
  rw [hrole] at hlabel
  have hsite : (⟨.exit, x, a⟩ : LabelSite) ∈ g.labelSites :=
    mem_labelSites_iff.mpr ⟨c, hc, hx, ha⟩
  refine mem_predecessors_iff.mpr ⟨d, hd, s.label, hlabel, ?_⟩
  rw [hname]
  exact blockOf?_eq_of_mem h hsite

/-- In a graph without faults, exactly the edges out of the last block are missing on the side of
the block they lead to. -/
theorem mem_predecessors_iff_of_faults (h : faults r = []) :
    a ∈ (ofRoutine r).predecessors b ↔
      a ≠ (ofRoutine r).last ∧ b ∈ (ofRoutine r).successors a := by
  constructor
  · intro hab
    have hlt := (lt_size_of_mem_predecessors hab).2
    exact ⟨by rw [last]; omega, mem_successors_of_mem_predecessors h b a hab⟩
  · rintro ⟨hne, hab⟩
    obtain ⟨c, hc, -⟩ := mem_successors_iff.mp hab
    have hlt : a < (ofRoutine r).size := (List.getElem?_eq_some_iff.mp hc).1
    refine mem_predecessors_of_mem_successors (repeatedLabels_of_faults h) ?_ hab
    rw [last] at hne
    omega

theorem exists_blockOf?_entry_iff (h : faults r = []) {label : Name} :
    (∃ i, (ofRoutine r).blockOf? .entry label = some i) ↔
      ∃ b ∈ (ofRoutine r).blocks, ∃ x ∈ b.entryLabels, x.name = label := by
  constructor
  · rintro ⟨i, hi⟩
    obtain ⟨s, hs, hrole, hname, rfl⟩ := exists_site_of_blockOf? hi
    obtain ⟨b, hb, hlabel, -⟩ := mem_labelSites_iff.mp hs
    rw [hrole] at hlabel
    exact ⟨b, List.mem_of_getElem? hb, s.label, hlabel, hname⟩
  · rintro ⟨b, hb, x, hx, rfl⟩
    obtain ⟨i, hi⟩ := List.mem_iff_getElem?.mp hb
    -- the first block has no entry labels, so this one links
    have hpos : 0 < i := by
      rcases Nat.eq_zero_or_pos i with rfl | hpos
      · have hhead := List.head?_eq_getElem? .. ▸ hi
        rw [Block.entryLabels_of_head hhead (cutFaults_of_faults h)] at hx
        cases hx
      · exact hpos
    have hsite : (⟨.entry, x, i⟩ : LabelSite) ∈ (ofRoutine r).labelSites :=
      mem_labelSites_iff.mpr ⟨b, hi, hx, hpos⟩
    exact ⟨i, blockOf?_eq_of_mem (repeatedLabels_of_faults h) hsite⟩

theorem exists_mem_successors_last_iff (h : faults r = []) :
    (∃ b, b ∈ (ofRoutine r).successors (ofRoutine r).last) ↔
      ∃ x ∈ (ofRoutine r).closingLabels, ∃ b ∈ (ofRoutine r).blocks, ∃ y ∈ b.entryLabels,
        y.name = x.name := by
  simp only [← exists_blockOf?_entry_iff h, mem_successors_iff, closingLabels]
  cases (ofRoutine r).blocks[(ofRoutine r).last]? with
  | none => simp
  | some c =>
    simp only [Option.some.injEq, exists_eq_left']
    exact ⟨fun ⟨b, x, hx, hb⟩ => ⟨x, hx, b, hb⟩, fun ⟨x, hx, b, hb⟩ => ⟨b, x, hx, hb⟩⟩

/-- In a graph without faults a block is before another if and only if that one is after it, as long
as it is not the last block. The last block is before none. So the two sides agree on all edges if
and only if no label of the exit point that the routine ends with stands in an entry point. -/
theorem edges_agree (h : faults r = []) :
    (∀ a b, a ≠ (ofRoutine r).last →
      (a ∈ (ofRoutine r).predecessors b ↔ b ∈ (ofRoutine r).successors a)) ∧
    (∀ b, (ofRoutine r).last ∉ (ofRoutine r).predecessors b) ∧
    ((∀ a b, a ∈ (ofRoutine r).predecessors b ↔ b ∈ (ofRoutine r).successors a) ↔
      ∀ x ∈ (ofRoutine r).closingLabels, ∀ b ∈ (ofRoutine r).blocks, ∀ y ∈ b.entryLabels,
        y.name ≠ x.name) := by
  have hlast : ∀ b, (ofRoutine r).last ∉ (ofRoutine r).predecessors b := fun b hb =>
    ((mem_predecessors_iff_of_faults h).mp hb).1 rfl
  have hother : ∀ a b, a ≠ (ofRoutine r).last →
      (a ∈ (ofRoutine r).predecessors b ↔ b ∈ (ofRoutine r).successors a) := by
    intro a b ha
    rw [mem_predecessors_iff_of_faults h, and_iff_right ha]
  refine ⟨hother, hlast, ?_⟩
  have hclosing := not_congr (exists_mem_successors_last_iff h)
  push Not at hclosing
  rw [← hclosing]
  constructor
  · intro hall b hb
    exact hlast b ((hall _ b).mpr hb)
  · intro hnone a b
    by_cases ha : a = (ofRoutine r).last
    · subst ha
      exact iff_of_false (hlast b) (hnone b)
    · exact hother a b ha

end ControlGraph

namespace Recoil

open Sample (span condition)

/-- A loop, and after it an exit point that names a label of the loop. -/
def routine : Routine where
  id := ⟨"recoil", span 0⟩
  inputs := []
  outputs := []
  body := [
    .jump .forward ⟨"enter", span 1⟩ (span 1),
    .branch .backward ⟨"enter", span 2⟩ ⟨"again", span 2⟩ (condition 2) (span 2),
    .branch .forward ⟨"again", span 3⟩ ⟨"leave", span 3⟩ (condition 3) (span 3),
    .jump .backward ⟨"leave", span 4⟩ (span 4),
    .jump .forward ⟨"again", span 5⟩ (span 5)]
  span := span 0

theorem edges_agree_recoil : ControlGraph.faults routine = [] ∧
    1 ∈ (ControlGraph.ofRoutine routine).successors 1 ∧
    1 ∈ (ControlGraph.ofRoutine routine).predecessors 1 := by
  have h : ControlGraph.faults routine = [] := by decide +kernel
  have hloop : 1 ∈ (ControlGraph.ofRoutine routine).successors 1 := by decide +kernel
  exact ⟨h, hloop, ((ControlGraph.edges_agree h).1 1 1 (by decide +kernel)).mpr hloop⟩

end Recoil

/-- The last block has a block after it that does not have it before, though nothing is reported. -/
theorem ControlGraph.edges_disagree : faults Recoil.routine = [] ∧
    (ofRoutine Recoil.routine).last = 2 ∧
    1 ∈ (ofRoutine Recoil.routine).successors 2 ∧
    2 ∉ (ofRoutine Recoil.routine).predecessors 1 := by
  decide +kernel

end Reversible
