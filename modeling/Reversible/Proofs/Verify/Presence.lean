import Reversible.Proofs.Marks.Balance
import Reversible.Proofs.Verify.Replay

/-! # Paths that lead outside the layout

In a routine that is accepted every path starts from a variable of the environment, and memory that
is created or destroyed is reached from a slot that holds a reference. No more than that is asked
for: a path that leads from a variable to a member that is not there is passed over, wherever it is
looked up, as if its action had not been written.
-/

namespace Reversible

namespace SlotAction

variable {s : Snapshot} {a : SlotAction} {l : Layout Ty}

def isPresent (l : Layout Ty) (a : SlotAction) : Bool := (l.slot a.path).isOk

theorem slot_of_not_isPresent (hs : Layout.shape s = l.shape) (ha : ¬ a.isPresent l) :
    ∃ e, Layout.slot s a.path = .error e := by
  cases h : l.slot a.path with
  | error e => exact ⟨e, Layout.slot_error_congr hs.symm h⟩
  | ok slot => exact absurd (by rw [isPresent, h]; rfl) ha

theorem apply_of_not_isPresent (hs : Layout.shape s = l.shape) (ha : ¬ a.isPresent l) :
    a.apply s = s := by
  obtain ⟨e, he⟩ := slot_of_not_isPresent hs ha
  rw [apply_eq_modify, Layout.modify_eq_self_of_slot he]

theorem fault?_of_not_isPresent (hs : Layout.shape s = l.shape) (ha : ¬ a.isPresent l) :
    a.fault? s = none := by
  obtain ⟨e, he⟩ := slot_of_not_isPresent hs ha
  exact fault?_of_slot_error he

theorem foldl_apply_filter_isPresent (hs : Layout.shape s = l.shape) (acts : List SlotAction) :
    (acts.filter (isPresent l)).foldl apply s = acts.foldl apply s := by
  induction acts generalizing s with
  | nil => rfl
  | cons a acts ih =>
    by_cases ha : a.isPresent l
    · rw [List.filter_cons_of_pos ha, List.foldl_cons, List.foldl_cons]
      exact ih ((shape_apply s a).trans hs)
    · rw [List.filter_cons_of_neg ha, List.foldl_cons, apply_of_not_isPresent hs ha, ih hs]

/-- A replay finds the same faults without the actions on slots that are not there. -/
theorem replay_filter_isPresent (hs : Layout.shape s = l.shape) (acts : List SlotAction) :
    replay s (acts.filter (isPresent l)) = replay s acts := by
  induction acts generalizing s with
  | nil => rfl
  | cons a acts ih =>
    by_cases ha : a.isPresent l
    · rw [List.filter_cons_of_pos ha, replay, replay, ih]
      rw [applyChecked]
      split
      · rw [shape_apply, hs]
      · exact hs
    · rw [List.filter_cons_of_neg ha, replay, applyChecked, fault?_of_not_isPresent hs ha, ih hs]
      simp [apply_of_not_isPresent hs ha]

end SlotAction

theorem MarkTable.Fits.leads_of_markAll {env : Environment} {l : Layout Ty} {t : MarkTable}
    {role : MemoryRole} {ms : List Memory} (hl : env.layout = .ok l) (h : t.Fits env.types l)
    (hm : (t.markAll role ms).2 = []) : ∀ m ∈ ms, ∃ ty, env.Leads m.path ty := by
  induction ms generalizing t with
  | nil => simp
  | cons m rest ih =>
    rw [markAll, List.append_eq_nil_iff, toList_markFault?_eq_nil_iff] at hm
    rw [List.forall_mem_cons]
    constructor
    · by_contra hno
      obtain ⟨⟨e, he⟩, -⟩ := mark_of_not_leads hl h (not_exists.mp hno)
      cases he.symm.trans hm.1
    · exact ih (h.mark m.path) hm.2

/-- The paths that an instruction denotes: those of its slots, and those of the slots under its
memory. -/
def Instruction.denotedPaths (i : Instruction) : List ResourcePath :=
  i.exprs.flatMap fun e => e.resourcePaths ++ e.memories.map (·.path.resource)

namespace Routine

variable {r : Routine} {env : Environment} {config : QueueConfig} {l : Layout Ty}
  {ins outs : Nat → Snapshot} {i : Instruction}

theorem exists_mention_of_mem_denotedPaths {path : ResourcePath} (hi : i ∈ r.body)
    (hp : path ∈ i.denotedPaths) : ∃ id ∈ Declarations.mentions r, id.name = path.root := by
  obtain ⟨e, he, hp⟩ := List.mem_flatMap.mp hp
  have hroot : ∃ id ∈ e.roots, id.name = path.root := by
    rcases List.mem_append.mp hp with hp | hp
    · exact Expr.exists_root_of_mem_resourcePaths hp
    · obtain ⟨m, hm, rfl⟩ := List.mem_map.mp hp
      exact Expr.exists_root_of_mem_memories hm
  obtain ⟨id, hid, hn⟩ := hroot
  exact ⟨id, Declarations.mem_mentions_of_mem_roots hi he hid, hn⟩

theorem check_faults_of_memoryPass (hl : env.layout = .ok l) (h : r.memoryPass env = [])
    (hi : i ∈ r.body) :
    (InstructionMarks.check ⟨env.types, l.map MarkTable.slotTree⟩ i).faults = [] := by
  rw [memoryPass, InstructionMarks.ofBody_eq, hl] at h
  have := List.flatMap_eq_nil_iff.mp h _ (List.mem_map_of_mem hi)
  exact List.map_eq_nil_iff.mp this

/-- In a routine that is accepted, memory that is created or destroyed is reached from a slot that
holds a reference. -/
theorem Accepted.exists_reference (h : r.Accepted env config l ins outs) (hi : i ∈ r.body)
    {role : MemoryRole} {m : Memory} (hm : m ∈ i.memories role) :
    ∃ base, l.leafAt m.path.resource = .ok (.reference base) := by
  have hfaults := check_faults_of_memoryPass h.layout_eq h.memory_eq hi
  obtain ⟨hd, hc, -⟩ := InstructionMarks.check_faults_eq_nil_iff.mp hfaults
  have hlead : ∃ ty, env.Leads m.path ty := by
    cases role with
    | destroyed => exact MarkTable.fits_blank.leads_of_markAll h.layout_eq hd m hm
    | created => exact MarkTable.fits_blank.leads_of_markAll h.layout_eq hc m hm
  obtain ⟨ty, hlead⟩ := hlead
  obtain ⟨base, hb, -⟩ := (Environment.leads_iff h.layout_eq).mp hlead
  exact ⟨base, hb⟩

/-- If nothing is reported for a routine, each path that an instruction denotes starts from a
variable of the layout, and the slot under memory that is created or destroyed is in the layout and
holds a reference. Other actions on slots that are not in the layout make no difference to any
block, neither to its faults nor to the snapshot after it. -/
theorem denotedPaths_rooted (h : (r.verify env config).diagnostics = []) :
    ∃ l, env.layout = .ok l ∧
      (∀ i ∈ r.body,
        (∀ path ∈ i.denotedPaths, ∃ slot, l.slot (.ofVariable path.root) = .ok slot) ∧
          ∀ role, ∀ p ∈ i.memoryPaths role, ∃ base, l.leafAt p.resource = .ok (.reference base)) ∧
      ∀ b, ∀ s : Snapshot, Layout.shape s = l.shape →
        let acts := (ControlGraph.ofRoutine r).trail [b]
        SlotAction.replay s acts = SlotAction.replay s (acts.filter (SlotAction.isPresent l)) ∧
          acts.foldl SlotAction.apply s =
            (acts.filter (SlotAction.isPresent l)).foldl SlotAction.apply s := by
  obtain ⟨l, ins, outs, ha⟩ := exists_accepted h
  refine ⟨l, ha.layout_eq, fun i hi => ⟨fun path hp => ?_, fun role p hp => ?_⟩, fun b s hs => ?_⟩
  · have hx := exists_mention_of_mem_denotedPaths hi hp
    exact (env.exists_slot_iff ha.layout_eq).mpr (Declarations.contains_of_faults ha.declared hx)
  · obtain ⟨m, hm, rfl⟩ := List.mem_map.mp hp
    exact ha.exists_reference hi hm
  · exact ⟨(SlotAction.replay_filter_isPresent hs _).symm,
      (SlotAction.foldl_apply_filter_isPresent hs _).symm⟩

end Routine

namespace Astray

open Sample (span slot member)

def cell (n : Nat) : Expr := .memory (.deref (.slot ⟨"p", span n⟩) (span n))

/-- `x` is a number, so it has no member `a`. -/
def stray : Instruction := .assign (member "x" "a" 9) (.int 5 (span 10)) none (span 9)

def routine : Routine where
  id := ⟨"astray", span 0⟩
  inputs := [⟨⟨"x", span 1⟩, none, span 1⟩, ⟨⟨"p", span 2⟩, none, span 2⟩]
  outputs := [⟨⟨"y", span 3⟩, none, span 3⟩, ⟨⟨"p", span 4⟩, none, span 4⟩]
  body := [
    .assign (slot "y" 5) (slot "x" 6) none (span 5),
    .assign (cell 7) (cell 8) none (span 7),
    stray]
  span := span 0

def env : Environment where
  types := ∅
  vars := (((∅ : NameMap Ty).insert "x" .int).insert "y" .int).insert "p" (.reference .int)

def layout : Layout Ty := .leaf "p" (.reference .int) (.leaf "x" .int (.leaf "y" .int .nil))

theorem layout_eq : env.layout = .ok layout := by decide +kernel

theorem accepted : (routine.verify env .standard).diagnostics = [] := by decide +kernel

theorem denotedPaths_rooted_astray : (routine.verify env .standard).diagnostics = [] ∧
    ∃ l, env.layout = .ok l ∧ (∃ slot, l.slot (.ofVariable "x") = .ok slot) ∧
      ∃ base, l.leafAt (.ofVariable "p") = .ok (.reference base) := by
  obtain ⟨l, hl, hbody, -⟩ := Routine.denotedPaths_rooted accepted
  have hx := (hbody stray (by simp [routine])).1 ⟨"x", ["a"]⟩ (by decide)
  have hp := (hbody (.assign (cell 7) (cell 8) none (span 7)) (by simp [routine])).2 .created
    ⟨.ofVariable "p", [.deref]⟩ (by decide)
  exact ⟨accepted, l, hl, hx, hp⟩

end Astray

/-- An accepted routine can denote a path that is not in the layout. -/
theorem Routine.denotedPaths_astray :
    (Astray.routine.verify Astray.env .standard).diagnostics = [] ∧
      Astray.env.layout = .ok Astray.layout ∧ Astray.stray ∈ Astray.routine.body ∧
      ⟨"x", ["a"]⟩ ∈ Astray.stray.denotedPaths ∧ ¬ (Astray.layout.slot ⟨"x", ["a"]⟩).isOk :=
  ⟨Astray.accepted, Astray.layout_eq, by simp [Astray.routine], by decide, by decide⟩

end Reversible
