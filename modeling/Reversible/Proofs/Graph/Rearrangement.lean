import Mathlib.Data.List.Perm.Basic
import Mathlib.Logic.Equiv.Defs
import Reversible.Proofs.Graph.Grammar

/-! # Rearranging the inner blocks

The blocks of a routine other than the first and the last can stand in any order. The grammar of
bodies counts labels only, so the graph of the rearranged routine has no fault either. It has the
same edges, between blocks that have got other numbers.
-/

namespace Reversible

/-- The routine in which the block that a number names now is the block `π` of that number. -/
def Routine.rearranged (r : Routine) (π : Equiv.Perm Nat) : Routine :=
  { r with body := (ControlGraph.ofRoutine r).ids.flatMap fun b =>
      (ControlGraph.ofRoutine r).instructions (π b) }

namespace ControlGraph

variable {g : ControlGraph} {r : Routine} {runs runs' : List (List Instruction)}
  {π : Equiv.Perm Nat} {b : Nat} {role : LabelRole} {name : Name}

/-- Only blocks other than the first and the last get another place. -/
def MovesInner (g : ControlGraph) (π : Equiv.Perm Nat) : Prop :=
  ∀ b, b = g.first ∨ g.last ≤ b → π b = b

theorem MovesInner.eq_zero_iff (h : g.MovesInner π) : π b = 0 ↔ b = 0 := by
  have h0 : π 0 = 0 := h 0 (.inl rfl)
  constructor
  · intro hb
    exact π.injective (hb.trans h0.symm)
  · rintro rfl
    exact h0

theorem MovesInner.last_le_iff (h : g.MovesInner π) : g.last ≤ π b ↔ g.last ≤ b := by
  constructor
  · intro hb
    rwa [π.injective (h (π b) (.inr hb))] at hb
  · intro hb
    rwa [h b (.inr hb)]

theorem MovesInner.add_one_lt_iff (h : g.MovesInner π) : π b + 1 < g.size ↔ b + 1 < g.size := by
  have hlast := h.last_le_iff (b := b)
  rw [last] at hlast
  omega

theorem MovesInner.lt_iff (h : g.MovesInner π) : π b < g.size ↔ b < g.size := by
  by_cases hb : g.last ≤ b
  · rw [h b (.inr hb)]
  · have hlast := h.last_le_iff.not.mpr hb
    rw [last] at hb hlast
    omega

theorem Grammatical.of_perm (h : Grammatical runs) (hhead : runs'.head? = runs.head?)
    (htail : runs'.tail.Perm runs.tail) (hinit : runs'.dropLast.Perm runs.dropLast)
    (hall : runs'.Perm runs) : Grammatical runs' where
  ne_nil hnil := h.ne_nil (List.nil_perm.mp (hnil ▸ hall))
  closes run hrun := h.closes run (hinit.subset hrun)
  opens run hrun := h.opens run (htail.subset hrun)
  not_opens run hrun := h.not_opens run (hhead ▸ hrun)
  straight run hrun := h.straight run (hall.subset hrun)
  paired := by
    have hnames : ∀ role, (linkingNames runs' role).Perm (linkingNames runs role) := by
      intro role
      cases role with
      | entry => exact htail.flatMap_right _
      | exit => exact hinit.flatMap_right _
    intro name hname role
    rw [(hnames role).count_eq]
    refine h.paired name ?_ role
    obtain ⟨other, hother⟩ := hname
    exact ⟨other, (hnames other).subset hother⟩

theorem perm_map_of_mem_iff {l : List Nat} (hl : l.Nodup) (h : ∀ b, π b ∈ l ↔ b ∈ l) :
    (l.map π).Perm l := by
  refine (List.perm_ext_iff_of_nodup (hl.map π.injective) hl).mpr fun b => ?_
  constructor
  · intro hb
    obtain ⟨c, hc, rfl⟩ := List.mem_map.mp hb
    exact (h c).mpr hc
  · intro hb
    refine List.mem_map.mpr ⟨π.symm b, (h _).mp ?_, π.apply_symm_apply b⟩
    rwa [π.apply_symm_apply]

theorem MovesInner.ids_perm (h : g.MovesInner π) : (g.ids.map π).Perm g.ids := by
  refine perm_map_of_mem_iff List.nodup_range fun b => ?_
  rw [ids, List.mem_range, List.mem_range, h.lt_iff]

theorem mem_tail_range {n b : Nat} : b ∈ (List.range n).tail ↔ 0 < b ∧ b < n := by
  rw [List.tail_range, List.mem_range'_1]
  omega

theorem mem_dropLast_range {n b : Nat} : b ∈ (List.range n).dropLast ↔ b + 1 < n := by
  cases n with
  | zero => simp
  | succ n =>
    rw [List.range_succ, List.dropLast_concat, List.mem_range]
    omega

section Rearranged

variable (hg : faults r = []) (hπ : (ofRoutine r).MovesInner π)
include hg hπ

theorem grammatical_rearranged :
    Grammatical ((ofRoutine r).ids.map fun b => (ofRoutine r).instructions (π b)) := by
  have hmap : ((ofRoutine r).ids.map fun b => (ofRoutine r).instructions (π b)) =
      ((ofRoutine r).ids.map π).map (ofRoutine r).instructions := by
    rw [List.map_map]
    rfl
  have hgram := (faults_eq_nil_iff.mp hg).1
  rw [runsOf_eq_map] at hgram
  have hnodup : (ofRoutine r).ids.Nodup := List.nodup_range
  rw [hmap]
  refine hgram.of_perm ?_ ?_ ?_ ?_
  · have hhead : (ofRoutine r).ids.head?.map π = (ofRoutine r).ids.head? := by
      rw [ids, List.head?_range]
      split
      · rfl
      · exact congrArg some (hπ 0 (.inl rfl))
    rw [List.head?_map, List.head?_map, List.head?_map, hhead]
  · rw [← List.map_tail, ← List.map_tail, ← List.map_tail]
    refine (perm_map_of_mem_iff (hnodup.sublist (List.tail_sublist _)) fun b => ?_).map _
    rw [ids, mem_tail_range, mem_tail_range, hπ.lt_iff, Nat.pos_iff_ne_zero, Nat.pos_iff_ne_zero,
      ne_eq, hπ.eq_zero_iff]
  · rw [← List.map_dropLast, ← List.map_dropLast, ← List.map_dropLast]
    refine (perm_map_of_mem_iff (hnodup.sublist (List.dropLast_sublist _)) fun b => ?_).map _
    rw [ids, mem_dropLast_range, mem_dropLast_range, hπ.add_one_lt_iff]
  · exact hπ.ids_perm.map _

theorem faults_rearranged : faults (r.rearranged π) = [] :=
  (faults_of_grammatical (grammatical_rearranged hg hπ) List.flatMap_def.symm).2

theorem size_rearranged : (ofRoutine (r.rearranged π)).size = (ofRoutine r).size := by
  rw [size_eq, (faults_of_grammatical (grammatical_rearranged hg hπ) List.flatMap_def.symm).1,
    List.length_map, ids, List.length_range]

theorem instructions_rearranged (b : Nat) :
    (ofRoutine (r.rearranged π)).instructions b = (ofRoutine r).instructions (π b) := by
  rw [instructions_eq,
    (faults_of_grammatical (grammatical_rearranged hg hπ) List.flatMap_def.symm).1,
    List.getElem?_map, ids]
  by_cases hb : b < (ofRoutine r).size
  · rw [List.getElem?_range hb]
    rfl
  · have hnone : (ofRoutine r).instructions (π b) = [] := by
      rw [instructions_eq, List.getElem?_eq_none, Option.getD_none]
      rw [← size_eq, ← Nat.not_lt, hπ.lt_iff]
      exact hb
    rw [hnone, List.getElem?_eq_none (by simpa using hb)]
    rfl

theorem links_rearranged_iff :
    (ofRoutine (r.rearranged π)).Links b role ↔ (ofRoutine r).Links (π b) role := by
  cases role with
  | entry =>
    rw [Links, Links, Nat.pos_iff_ne_zero, Nat.pos_iff_ne_zero, ne_eq, ne_eq, hπ.eq_zero_iff]
  | exit =>
    rw [Links, Links, size_rearranged hg hπ, hπ.add_one_lt_iff]

theorem blockOf?_rearranged :
    (ofRoutine (r.rearranged π)).blockOf? role name =
      ((ofRoutine r).blockOf? role name).map π.symm := by
  ext i
  rw [Option.map_eq_some_iff, blockOf?_eq_some_iff_instructions (faults_rearranged hg hπ),
    instructions_rearranged hg hπ, links_rearranged_iff hg hπ,
    ← blockOf?_eq_some_iff_instructions hg]
  constructor
  · intro hi
    exact ⟨π i, hi, π.symm_apply_apply i⟩
  · rintro ⟨j, hj, rfl⟩
    rwa [π.apply_symm_apply]

theorem predecessors_rearranged (b : Nat) :
    (ofRoutine (r.rearranged π)).predecessors b =
      ((ofRoutine r).predecessors (π b)).map π.symm := by
  refine predecessors_eq_map π.symm.injective ?_ fun x _ => blockOf?_rearranged hg hπ
  rw [instructions_rearranged hg hπ]

theorem body_rearranged_perm : (r.rearranged π).body.Perm r.body := by
  have hbody : r.body = (ofRoutine r).ids.flatMap (ofRoutine r).instructions := by
    conv_lhs => rw [← (faults_eq_nil_iff.mp hg).2, runsOf_eq_map]
    exact List.flatMap_def.symm
  have hbody' : (r.rearranged π).body =
      ((ofRoutine r).ids.map π).flatMap (ofRoutine r).instructions := by
    rw [List.flatMap_map]
    rfl
  rw [hbody', hbody]
  exact hπ.ids_perm.flatMap_right _

end Rearranged

end ControlGraph

end Reversible
