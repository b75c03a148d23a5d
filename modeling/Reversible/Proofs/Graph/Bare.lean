import Reversible.Proofs.Syntax.Bare
import Reversible.Proofs.Verify.Findings

/-! # The graph of a bare routine

The bare form of a routine is cut into the bare forms of its blocks, and these are linked in the
same way. So the two graphs have the same faults, apart from the places where they are.
-/

namespace Reversible

namespace Block

def bare (b : Block) : Block := ⟨b.start, b.instructions.map (·.bare)⟩

@[simp] theorem entryLabels_bare (b : Block) :
    b.bare.entryLabels = b.entryLabels.map (·.bare) := by
  rw [entryLabels, entryLabels, bare, List.head?_map]
  cases b.instructions.head? with
  | none => rfl
  | some i => by_cases hi : i.isEntryPoint <;> simp [hi]

@[simp] theorem exitLabels_bare (b : Block) : b.bare.exitLabels = b.exitLabels.map (·.bare) := by
  rw [exitLabels, exitLabels, bare, List.getLast?_map]
  cases b.instructions.getLast? with
  | none => rfl
  | some i => by_cases hi : i.isExitPoint <;> simp [hi]

theorem push_bare (b : Block) (i : Instruction) : b.bare.push i.bare = (b.push i).bare := by
  simp [push, bare]

theorem cut_bare (position : Nat) (current : Option Block) (body : List Instruction) :
    cut position (current.map (·.bare)) (body.map (·.bare)) =
      (cut position current body).map (·.bare) := by
  induction body generalizing position current with
  | nil => cases current <;> rfl
  | cons i body ih =>
    cases current with
    | none =>
      have hopen := ih (position + 1) (some ⟨position, [i]⟩)
      have hskip := ih (position + 1) none
      by_cases hi : i.isEntryPoint
      · simpa [cut, hi, bare] using hopen
      · simpa [cut, hi] using hskip
    | some c =>
      have hclose := ih (position + 1) none
      have hgo := ih (position + 1) (some (c.push i))
      by_cases hi : i.isExitPoint
      · simpa [cut, hi, push_bare] using hclose
      · simpa [cut, hi, push_bare] using hgo

theorem ofBody_bare (body : List Instruction) :
    ofBody (body.map (·.bare)) = (ofBody body).map (·.bare) :=
  cut_bare 0 (some ⟨0, []⟩) body

theorem map_finding_cutFaults_bare (isOpen : Bool) (body : List Instruction) :
    (cutFaults isOpen (body.map (·.bare))).map (·.diagnostic.finding) =
      (cutFaults isOpen body).map (·.diagnostic.finding) := by
  induction body generalizing isOpen with
  | nil => rfl
  | cons i body ih =>
    cases isOpen with
    | true =>
      rw [List.map_cons, cutFaults, cutFaults, List.map_append, List.map_append,
        i.isExitPoint_bare, ih, i.isEntryPoint_bare]
      by_cases hi : i.isEntryPoint
      · rw [if_pos hi, if_pos hi]
        rfl
      · rw [if_neg hi, if_neg hi]
    | false =>
      rw [List.map_cons, cutFaults, cutFaults, i.isEntryPoint_bare]
      by_cases hi : i.isEntryPoint
      · rw [if_pos hi, if_pos hi, ih]
      · rw [if_neg hi, if_neg hi, List.map_cons, List.map_cons, ih]
        rfl

end Block

def LabelSite.bare (s : LabelSite) : LabelSite := ⟨s.role, s.label.bare, s.block⟩

namespace ControlGraph

variable (g : ControlGraph) (r : Routine)

def bare : ControlGraph := ⟨g.routine, g.blocks.map (·.bare)⟩

theorem ofRoutine_bare : ofRoutine r.bare = (ofRoutine r).bare :=
  congrArg (ControlGraph.mk r.name) (Block.ofBody_bare r.body)

@[simp] theorem size_bare : g.bare.size = g.size := List.length_map _

@[simp] theorem ids_bare : g.bare.ids = g.ids := congrArg List.range g.size_bare

theorem getElem?_blocks_bare (i : Nat) : g.bare.blocks[i]? = g.blocks[i]?.map (·.bare) :=
  List.getElem?_map

theorem labelSites_bare : g.bare.labelSites = g.labelSites.map (·.bare) := by
  rw [labelSites, labelSites, size_bare, bare, List.zipIdx_map, List.flatMap_map, List.map_flatMap]
  apply List.flatMap_congr
  rintro ⟨b, i⟩ -
  simp only [Prod.map, id_eq, Block.entryLabels_bare, Block.exitLabels_bare, List.map_append,
    apply_ite (List.map LabelSite.bare), List.map_map, List.map_nil]
  rfl

@[simp] theorem blockOf?_bare (role : LabelRole) (label : Name) :
    g.bare.blockOf? role label = g.blockOf? role label := by
  rw [blockOf?, blockOf?, labelSites_bare, List.find?_map, Option.map_map]
  rfl

theorem linked_bare (role : LabelRole) (labels : List Ident) :
    g.bare.linked role (labels.map (·.bare)) = g.linked role labels := by
  simp [linked, List.filterMap_map, Function.comp_def]

@[simp] theorem predecessors_bare (i : Nat) : g.bare.predecessors i = g.predecessors i := by
  rw [predecessors, predecessors, getElem?_blocks_bare]
  cases g.blocks[i]? with
  | none => rfl
  | some b => simpa using g.linked_bare .exit b.entryLabels

@[simp] theorem successors_bare (i : Nat) : g.bare.successors i = g.successors i := by
  rw [successors, successors, getElem?_blocks_bare]
  cases g.blocks[i]? with
  | none => rfl
  | some b => simpa using g.linked_bare .entry b.exitLabels

theorem instructions_bare (i : Nat) : g.bare.instructions i = (g.instructions i).map (·.bare) := by
  rw [instructions, instructions, getElem?_blocks_bare]
  cases g.blocks[i]? <;> rfl

theorem map_finding_repeatedLabels_bare :
    g.bare.repeatedLabels.map (·.diagnostic.finding) =
      g.repeatedLabels.map (·.diagnostic.finding) := by
  rw [repeatedLabels, repeatedLabels, labelSites_bare, repeats_map, List.map_map, List.map_map,
    List.map_map]
  refine List.map_congr_left fun p _ => ?_
  obtain ⟨first, ⟨role, label, block⟩⟩ := p
  cases role <;> rfl

def unmatchedFinding (role : LabelRole) (name : Name) : Finding :=
  (GraphFault.unmatchedLabel role ⟨name, .dummy⟩).diagnostic.finding

theorem map_finding_unmatchedLabels (role other : LabelRole) :
    (g.unmatchedLabels role other).map (·.diagnostic.finding) =
      ((g.labelsOf role).keys.filter fun name => (g.blockOf? other name).isNone).map
        (unmatchedFinding role) := by
  rw [unmatchedLabels, NameMap.keys, List.filter_map, List.map_map, List.map_map]
  refine List.map_congr_left fun e he => ?_
  -- each label is kept under its own name
  have hkey : e.1 = e.2.name := by
    rcases NameMap.mem_entries_foldl_insertNew _ _ (List.mem_filter.mp he).1 with hm | ⟨s, -, rfl⟩
    · exact absurd hm List.not_mem_nil
    · rfl
  obtain ⟨name, label⟩ := e
  obtain rfl : name = label.name := hkey
  cases role <;> rfl

theorem keys_labelsOf_bare (role : LabelRole) :
    (g.bare.labelsOf role).keys = (g.labelsOf role).keys := by
  refine NameMap.keys_eq_of_mem_iff fun name => ?_
  rw [labelsOf, labelsOf, NameMap.mem_keys_foldl_insertNew, NameMap.mem_keys_foldl_insertNew,
    labelSites_bare, List.filter_map]
  simp only [List.mem_map, exists_exists_and_eq_and]
  rfl

theorem map_finding_faults_bare :
    (faults r.bare).map (·.diagnostic.finding) = (faults r).map (·.diagnostic.finding) := by
  have hunmatched : ∀ role other, ((ofRoutine r).bare.unmatchedLabels role other).map
      (·.diagnostic.finding) = ((ofRoutine r).unmatchedLabels role other).map
        (·.diagnostic.finding) := by
    intro role other
    rw [map_finding_unmatchedLabels, map_finding_unmatchedLabels, keys_labelsOf_bare]
    simp only [blockOf?_bare]
  simp only [faults, List.map_append, ofRoutine_bare, hunmatched, map_finding_repeatedLabels_bare]
  rw [Routine.bare, Block.map_finding_cutFaults_bare]

theorem faults_bare_eq_nil_iff : faults r.bare = [] ↔ faults r = [] := by
  rw [← List.map_eq_nil_iff, map_finding_faults_bare, List.map_eq_nil_iff]

end ControlGraph

end Reversible
