import Reversible.Proofs.Occupancy.Checks

/-! # Acceptance of well-behaved routines

A leaf is occupied at a point of a walk if it was last initialized. In a well-behaved routine every
walk finds leaves occupied where it finalizes or reads them and free where it initializes them, the
walks to one block agree on the occupied leaves, and at the end the leaves of outputs are occupied
and those of other variables are not. What the solution knows of a leaf is then true of every walk,
and so each check passes.
-/

namespace Reversible

/-- What an action asks of the leaves below its path. -/
def SlotAction.Permitted (l : Layout Ty) (occupied : Nat → Prop) : SlotAction → Prop
  | finalizing path _ => ∀ k ∈ l.leavesAt path, occupied k
  | reading path _ => ∀ k ∈ l.leavesAt path, occupied k
  | initializing path _ => ∀ k ∈ l.leavesAt path, ¬ occupied k

namespace Routine

/-- What was done to a leaf last is an initialization; an input arrives initialized. -/
def Occupied (r : Routine) (l : Layout Ty) (done : List SlotAction) (k : Nat) : Prop :=
  (r.arrival l k ++ done.filterMap (SlotAction.operationOn? l k)).getLast? = some .initialization

def Permits (r : Routine) (l : Layout Ty) : List SlotAction → List SlotAction → Prop
  | _, [] => True
  | done, a :: acts => a.Permitted l (r.Occupied l done) ∧ r.Permits l (done ++ [a]) acts

/-- Every block is reached, all actions along walks are permitted, walks to one block agree on the
occupied leaves, and walks to the end leave the outputs occupied and no other declared variable.
Some walk to the end has to touch such a variable, since it is reported if nothing is known of
it. -/
structure WellBehaved (r : Routine) (l : Layout Ty) : Prop where
  reachable : ∀ b ∈ (ControlGraph.ofRoutine r).ids, ∃ bs, (ControlGraph.ofRoutine r).Walk bs b
  permitted : ∀ bs b, (ControlGraph.ofRoutine r).Walk bs b →
    r.Permits l [] ((ControlGraph.ofRoutine r).trail bs)
  agree : ∀ bs₁ bs₂ b, (ControlGraph.ofRoutine r).Walk bs₁ b →
    (ControlGraph.ofRoutine r).Walk bs₂ b → ∀ k,
      r.Occupied l ((ControlGraph.ofRoutine r).trail bs₁) k ↔
        r.Occupied l ((ControlGraph.ofRoutine r).trail bs₂) k
  outputs : ∀ bs, (ControlGraph.ofRoutine r).Walk bs (ControlGraph.ofRoutine r).last →
    ∀ q ∈ r.outputs, ∀ k ∈ l.leavesAt (.ofVariable q.id.name),
      r.Occupied l ((ControlGraph.ofRoutine r).trail bs) k
  others : ∀ bs, (ControlGraph.ofRoutine r).Walk bs (ControlGraph.ofRoutine r).last →
    ∀ id ∈ Declarations.mentions r, (∀ q ∈ r.outputs, q.id.name ≠ id.name) →
      ∀ k ∈ l.leavesAt (.ofVariable id.name),
        ¬ r.Occupied l ((ControlGraph.ofRoutine r).trail bs) k
  touched : ∀ id ∈ Declarations.mentions r, (∀ q ∈ r.outputs, q.id.name ≠ id.name) →
    ∃ bs, (ControlGraph.ofRoutine r).Walk bs (ControlGraph.ofRoutine r).last ∧
      ∃ k ∈ l.leavesAt (.ofVariable id.name), r.history l bs k ≠ []

variable {r : Routine} {l : Layout Ty} {done acts : List SlotAction} {a : SlotAction} {k : Nat}

instance : DecidablePred (r.Occupied l done) := fun _ => inferInstanceAs (Decidable (_ = _))

instance {occupied : Nat → Prop} [DecidablePred occupied] :
    (a : SlotAction) → Decidable (a.Permitted l occupied)
  | .finalizing _ _ => inferInstanceAs (Decidable (∀ _ ∈ _, _))
  | .reading _ _ => inferInstanceAs (Decidable (∀ _ ∈ _, _))
  | .initializing _ _ => inferInstanceAs (Decidable (∀ _ ∈ _, ¬ _))

instance decidablePermits (r : Routine) (l : Layout Ty) :
    (done acts : List SlotAction) → Decidable (r.Permits l done acts)
  | _, [] => .isTrue trivial
  | done, a :: acts =>
    have := decidablePermits r l (done ++ [a]) acts
    inferInstanceAs (Decidable (_ ∧ _))

theorem occupied_nil_iff :
    r.Occupied l [] k ↔ ∃ q ∈ r.inputs, k ∈ l.leavesAt (.ofVariable q.id.name) := by
  rw [Occupied, arrival]
  split <;> simp_all

theorem occupied_concat_of_not_mem (hk : k ∉ l.leavesAt a.path) :
    r.Occupied l (done ++ [a]) k ↔ r.Occupied l done k := by
  simp [Occupied, SlotAction.operationOn?, hk]

theorem occupied_concat_of_mem (hk : k ∈ l.leavesAt a.path) :
    r.Occupied l (done ++ [a]) k ↔
      (a.operation? = none ∧ r.Occupied l done k) ∨ a.operation? = some .initialization := by
  rw [Occupied, List.filterMap_append, ← List.append_assoc]
  cases ho : a.operation? <;>
    simp [Occupied, SlotAction.operationOn?, hk, ho]

theorem lt_of_occupied (h : r.Occupied l done k) : k < l.values.length := by
  by_contra hk
  have hnot : ∀ path, k ∉ l.leavesAt path := fun path hm => hk (Layout.lt_of_mem_leavesAt hm)
  have hnone : done.filterMap (SlotAction.operationOn? l k) = [] :=
    List.filterMap_eq_nil_iff.mpr fun a _ => if_neg (hnot a.path)
  simp [Occupied, arrival, hnone, hnot] at h

theorem permits_append_iff {acts' : List SlotAction} :
    r.Permits l done (acts ++ acts') ↔
      r.Permits l done acts ∧ r.Permits l (done ++ acts) acts' := by
  induction acts generalizing done with
  | nil => simp [Permits]
  | cons a acts ih => simp [Permits, ih, and_assoc]

/-- Whether a leaf was occupied before some actions can be told from whether it is afterwards, if
all of them were permitted: the first one on the leaf leaves no choice. -/
theorem occupied_iff_of_permits {done' : List SlotAction} (h : r.Permits l done acts)
    (h' : r.Permits l done' acts)
    (he : r.Occupied l (done ++ acts) k ↔ r.Occupied l (done' ++ acts) k) :
    r.Occupied l done k ↔ r.Occupied l done' k := by
  induction acts generalizing done done' with
  | nil => simpa using he
  | cons a acts ih =>
    by_cases hk : k ∈ l.leavesAt a.path
    · cases a with
      | finalizing path span => exact iff_of_true (h.1 k hk) (h'.1 k hk)
      | reading path span => exact iff_of_true (h.1 k hk) (h'.1 k hk)
      | initializing path span => exact iff_of_false (h.1 k hk) (h'.1 k hk)
    · have hrest := ih h.2 h'.2 (by simpa using he)
      rwa [occupied_concat_of_not_mem hk, occupied_concat_of_not_mem hk] at hrest

end Routine

namespace Snapshot

variable {r : Routine} {l : Layout Ty} {s t : Snapshot} {done acts : List SlotAction}
  {a : SlotAction} {occupied : Nat → Prop}

/-- What a snapshot knows of a leaf is true. -/
def Agrees (s : Snapshot) (occupied : Nat → Prop) : Prop :=
  ∀ k, (s.MayHold k → occupied k) ∧ (s.MayLack k → ¬ occupied k)

theorem Agrees.congr {occupied' : Nat → Prop} (h : s.Agrees occupied)
    (he : ∀ k, occupied k ↔ occupied' k) : s.Agrees occupied' := by
  intro k
  rw [← he k]
  exact h k

theorem agrees_blank : Agrees (l.map fun _ => .unknown) occupied := by
  intro k
  constructor
  · intro h
    exact absurd h Routine.not_mayHold_blank
  · intro h
    exact absurd h Routine.not_mayLack_blank

theorem Agrees.meet (hs : s.Agrees occupied) (ht : t.Agrees occupied)
    (h : Layout.shape s = Layout.shape t) : (s.meet t).Agrees occupied := by
  intro k
  constructor
  · intro hk
    exact (mayHold_or_of_meet h hk).elim (hs k).1 (ht k).1
  · intro hk
    exact (mayLack_or_of_meet h hk).elim (hs k).2 (ht k).2

theorem Agrees.apply (h : s.Agrees (r.Occupied l done)) (hs : Layout.shape s = l.shape)
    (hc : s.HasCauses) (ha : a.Permitted l (r.Occupied l done)) :
    Agrees (a.apply s) (r.Occupied l (done ++ [a])) := by
  intro k
  by_cases hk : k ∈ l.leavesAt a.path
  · rw [Routine.occupied_concat_of_mem hk]
    have hk' : k ∈ Layout.leavesAt s a.path := by rwa [Layout.leavesAt_congr hs]
    cases a with
    | finalizing path span =>
      have hlack : ¬ s.MayLack k := fun hl => (h k).2 hl (ha k hk)
      constructor
      · intro hh
        exact absurd hh (SlotAction.not_mayHold_apply_finalizing hc hk' hlack)
      · simp [SlotAction.operation?]
    | reading path span => simpa [SlotAction.operation?, SlotAction.apply] using h k
    | initializing path span =>
      have hhold : ¬ s.MayHold k := fun hh => ha k hk ((h k).1 hh)
      constructor
      · simp [SlotAction.operation?]
      · intro hl
        exact absurd hl (SlotAction.not_mayLack_apply_initializing hc hk' hhold)
  · rw [Routine.occupied_concat_of_not_mem hk, MayHold, MayLack,
      SlotAction.getElem?_values_apply_of_not_mem (by rwa [Layout.leavesAt_congr hs])]
    exact h k

theorem Agrees.foldl_apply (h : s.Agrees (r.Occupied l done)) (hs : Layout.shape s = l.shape)
    (hc : s.HasCauses) (hp : r.Permits l done acts) :
    Agrees (acts.foldl SlotAction.apply s) (r.Occupied l (done ++ acts)) := by
  induction acts generalizing s done with
  | nil => simpa using h
  | cons a acts ih =>
    have := ih (h.apply hs hc hp.1) (by rw [SlotAction.shape_apply, hs])
      (SlotAction.hasCauses_apply a hc) hp.2
    simpa using this

theorem Agrees.fault?_eq_none (h : s.Agrees occupied) (hcov : ∀ k, occupied k → s.MayHold k)
    (hs : Layout.shape s = l.shape) (hc : s.HasCauses) (hf : l.Filled)
    (ha : a.Permitted l occupied) : a.fault? s = none := by
  cases hslot : Layout.slot s a.path with
  | error e => exact SlotAction.fault?_of_slot_error hslot
  | ok slot =>
    rw [SlotAction.fault?_eq_none_iff hc hslot]
    obtain ⟨slot', hslot'⟩ := (Layout.exists_slot_congr hs).mp ⟨slot, hslot⟩
    obtain ⟨k, hk⟩ := hf.exists_mem_leavesAt hslot'
    cases a with
    | finalizing path span =>
      rw [SlotAction.Fits, Layout.leavesAt_congr hs]
      exact ⟨⟨k, hk, hcov k (ha k hk)⟩, fun k hk hl => (h k).2 hl (ha k hk)⟩
    | reading path span =>
      rw [SlotAction.Fits, Layout.leavesAt_congr hs]
      exact ⟨⟨k, hk, hcov k (ha k hk)⟩, fun k hk hl => (h k).2 hl (ha k hk)⟩
    | initializing path span =>
      rw [SlotAction.Fits, Layout.leavesAt_congr hs]
      exact fun k hk hh => ha k hk ((h k).1 hh)

theorem Agrees.replay_eq_nil (h : s.Agrees (r.Occupied l done))
    (hcov : ∀ k, s.Covers k (r.arrival l k ++ done.filterMap (SlotAction.operationOn? l k)))
    (hs : Layout.shape s = l.shape) (hc : s.HasCauses) (hf : l.Filled)
    (hp : r.Permits l done acts) : SlotAction.replay s acts = [] := by
  induction acts generalizing s done with
  | nil => rfl
  | cons a acts ih =>
    refine SlotAction.replay_cons_eq_nil_iff.mpr ⟨?_, ?_⟩
    · exact h.fault?_eq_none (fun k => (hcov k).1) hs hc hf hp.1
    · refine ih (h.apply hs hc hp.1) (fun k => ?_) (by rw [SlotAction.shape_apply, hs])
        (SlotAction.hasCauses_apply a hc) hp.2
      have := (hcov k).apply (a := a) hs
      simpa [List.filterMap_append, SlotAction.filterMap_operationOn?_cons] using this

end Snapshot

namespace Routine

variable {r : Routine} {env : Environment} {config : QueueConfig} {l : Layout Ty}
  {ins outs : Nat → Snapshot} {b c k : Nat} {bs bs₁ bs₂ : List Nat}

theorem WellBehaved.permits_block (hw : r.WellBehaved l)
    (h : (ControlGraph.ofRoutine r).Walk (bs ++ [b]) b) :
    r.Permits l ((ControlGraph.ofRoutine r).trail bs) ((ControlGraph.ofRoutine r).trail [b]) := by
  have hp := hw.permitted _ _ h
  rw [ControlGraph.trail_append, permits_append_iff, List.nil_append] at hp
  exact hp.2

/-- Walks that have come up to a block agree as well, before it is entered. -/
theorem WellBehaved.approaches_agree (hw : r.WellBehaved l)
    (h₁ : (ControlGraph.ofRoutine r).Walk (bs₁ ++ [b]) b)
    (h₂ : (ControlGraph.ofRoutine r).Walk (bs₂ ++ [b]) b) :
    r.Occupied l ((ControlGraph.ofRoutine r).trail bs₁) k ↔
      r.Occupied l ((ControlGraph.ofRoutine r).trail bs₂) k := by
  have he := hw.agree _ _ _ h₁ h₂ k
  rw [ControlGraph.trail_append, ControlGraph.trail_append] at he
  exact occupied_iff_of_permits (hw.permits_block h₁) (hw.permits_block h₂) he

/-- Before a block, what the solver knows is true of every walk up to the block, and after it of
every walk to the block. -/
theorem WellBehaved.closed_agrees (hw : r.WellBehaved l) (hg : ControlGraph.faults r = []) :
    (r.problem l).flow.Closed
      (fun b s => (Layout.shape s = l.shape ∧ s.HasCauses) ∧ ∀ bs,
        (ControlGraph.ofRoutine r).Walk (bs ++ [b]) b →
          s.Agrees (r.Occupied l ((ControlGraph.ofRoutine r).trail bs)))
      (fun b s => (Layout.shape s = l.shape ∧ s.HasCauses) ∧ ∀ bs,
        (ControlGraph.ofRoutine r).Walk bs b →
          s.Agrees (r.Occupied l ((ControlGraph.ofRoutine r).trail bs))) := by
  have hC := closed_hasCauses (r := r) (l := l)
  constructor
  · intro b hb
    refine ⟨hC.input b hb, fun bs hbs => ?_⟩
    change ((r.problem l).initialIn b).Agrees _
    rw [OccupancyProblem.initialIn]
    split
    · next hfirst =>
      obtain rfl : b = 0 := hfirst
      obtain rfl : bs = [] := by simpa using hbs.eq_of_first hg
      intro k
      constructor
      · intro h
        exact occupied_nil_iff.mpr (mayHold_entry_iff.mp h)
      · intro h
        exact absurd h not_mayLack_entry
    · exact Snapshot.agrees_blank
  · intro b hb
    exact ⟨hC.output b hb, fun bs _ => Snapshot.agrees_blank⟩
  · rintro b c s t hb hc hcb ⟨hs, hsa⟩ ⟨ht, hta⟩
    refine ⟨hC.combine b c s t hb hc hcb hs ht, fun bs hbs => ?_⟩
    -- `t` is known to be right only for walks to `c`, and `bs` may come by another block.
    obtain ⟨cs, hcs⟩ := hw.reachable c hc
    have hta := (hta cs hcs).congr fun k => hw.approaches_agree (hcs.step hcb) hbs
    exact (hsa bs hbs).meet hta (hs.1.trans ht.1.symm)
  · rintro b s hb ⟨hs, hsa⟩
    refine ⟨hC.transfer b s hb hs, fun bs hbs => ?_⟩
    obtain ⟨before, rfl⟩ := hbs.exists_approach
    have := (hsa before hbs).foldl_apply hs.1 hs.2 (hw.permits_block hbs)
    rwa [← ControlGraph.trail_append, ControlGraph.trail_singleton] at this

section Solution

variable (hw : r.WellBehaved l) (h : (r.problem l).Solves ins outs)
  (hg : ControlGraph.faults r = [])
include hw h hg

theorem WellBehaved.outs_agrees (hbs : (ControlGraph.ofRoutine r).Walk bs b) :
    (outs b).Agrees (r.Occupied l ((ControlGraph.ofRoutine r).trail bs)) :=
  (h.of_closed hbs.mem_ids (hw.closed_agrees hg)).2.2 bs hbs

theorem WellBehaved.replay_solve_eq_nil (hf : l.Filled) :
    OccupancySolution.replay (.ofRoutine r) (r.problem l).solve = [] := by
  rw [replay_solve_eq_nil_iff h]
  intro b hb
  obtain ⟨bs, hbs⟩ := hw.reachable b hb
  obtain ⟨before, rfl, hcov⟩ := covers_approach h hg hbs
  obtain ⟨⟨hs, hc⟩, hag⟩ := (h.of_closed hb (hw.closed_agrees hg)).1
  refine (hag before hbs).replay_eq_nil (fun k => ?_) hs hc hf (hw.permits_block hbs)
  rw [← history_eq]
  exact hcov k

theorem WellBehaved.conflicts_eq_nil :
    OccupancySolution.conflicts (.ofRoutine r) (r.problem l).solve (.ofRoutine r) = [] := by
  apply conflicts_solve_eq_nil h
  rintro b hb k ⟨hh, hl⟩
  obtain ⟨bs, hbs⟩ := hw.reachable b hb
  have hag := hw.outs_agrees h hg hbs k
  exact hag.2 hl (hag.1 hh)

theorem WellBehaved.ending_eq_nil (hl : env.layout = .ok l) (hd : Declarations.faults r env = [])
    (hf : l.Filled) :
    OccupancySolution.ending (.ofRoutine r) (r.problem l).solve (.ofRoutine r) = [] := by
  rw [ending_solve_eq_nil_iff h hl hd]
  intro x hx
  obtain ⟨bs, hbs⟩ := hw.reachable _ (last_mem_ids r)
  have hag := hw.outs_agrees h hg hbs
  split
  · next ho =>
    obtain ⟨q, hq, rfl⟩ := Declarations.isOutput_iff.mp ho
    obtain ⟨slot, hslot⟩ := (env.exists_slot_iff hl).mpr (Declarations.contains_of_faults hd hx)
    obtain ⟨k, hk⟩ := hf.exists_mem_leavesAt hslot
    refine ⟨⟨k, hk, (covers_walk h hg hbs).1 ?_⟩,
      fun k hk hl => (hag k).2 hl (hw.outputs bs hbs q hq k hk)⟩
    rw [history_eq]
    exact hw.outputs bs hbs q hq k hk
  · next ho =>
    obtain ⟨id, hid, rfl⟩ := hx
    have hout : ∀ q ∈ r.outputs, q.id.name ≠ id.name := fun q hq hn =>
      ho (Declarations.isOutput_iff.mpr ⟨q, hq, hn⟩)
    refine ⟨?_, fun k hk hh => hw.others bs hbs id hid hout k hk ((hag k).1 hh)⟩
    obtain ⟨cs, hcs, k, hk, hne⟩ := hw.touched id hid hout
    refine ⟨k, hk, (covers_walk h hg hcs).2 ?_⟩
    have hnot := hw.others cs hcs id hid hout k hk
    rw [Occupied, ← history_eq] at hnot
    exact (Operation.getLast?_of_ne_nil hne).resolve_left hnot

end Solution

/-- Nothing is reported for a well-behaved routine whose declarations, graph and memory accesses
are in order, if all structures have members. -/
theorem accepted_of_wellBehaved (hw : r.WellBehaved l) (hl : env.layout = .ok l) (hf : l.Filled)
    (hd : Declarations.faults r env = []) (hg : ControlGraph.faults r = [])
    (hm : r.memoryPass env = []) : (r.verify env config).diagnostics = [] := by
  refine diagnostics_eq_nil_iff.mpr ⟨hd, hg, ?_, hm⟩
  obtain ⟨ins, outs, hs⟩ := r.exists_solves_problem l hg
  exact (occupancyPass_eq_nil_iff hl hd).mpr ⟨hw.conflicts_eq_nil hs hg,
    hw.replay_solve_eq_nil hs hg hf, hw.ending_eq_nil hs hg hl hd hf⟩

end Routine

namespace Choose

open Carry (env layout)
open Sample (span slot condition)

/-- One branch hands `p` to `q` at once, the other through `t`. -/
def routine : Routine where
  id := ⟨"choose", span 0⟩
  inputs := [⟨⟨"p", span 1⟩, none, span 1⟩]
  outputs := [⟨⟨"q", span 2⟩, none, span 2⟩]
  body := [
    .branch .forward ⟨"straight", span 3⟩ ⟨"around", span 3⟩ (condition 3) (span 3),
    .jump .backward ⟨"straight", span 4⟩ (span 4),
    .assign (slot "q" 5) (slot "p" 6) none (span 5),
    .jump .forward ⟨"first", span 7⟩ (span 7),
    .jump .backward ⟨"around", span 8⟩ (span 8),
    .assign (slot "t" 9) (slot "p" 10) none (span 9),
    .assign (slot "q" 11) (slot "t" 12) none (span 11),
    .jump .forward ⟨"second", span 13⟩ (span 13),
    .branch .backward ⟨"first", span 14⟩ ⟨"second", span 14⟩ (condition 14) (span 14)]
  span := span 0

def walks : List (List Nat × Nat) :=
  [([0], 0), ([0, 1], 1), ([0, 2], 2), ([0, 1, 3], 3), ([0, 2, 3], 3)]

theorem mem_walks {bs : List Nat} {b : Nat} (h : (ControlGraph.ofRoutine routine).Walk bs b) :
    (bs, b) ∈ walks := by
  have hedges : ∀ c ∈ (ControlGraph.ofRoutine routine).ids,
      ∀ b ∈ (ControlGraph.ofRoutine routine).predecessors c,
        (b, c) ∈ [(0, 1), (0, 2), (1, 3), (2, 3)] := by decide +kernel
  induction h with
  | start => exact List.mem_cons_self
  | step hw hp ih =>
    have he := hedges _ (hw.step hp).mem_ids _ hp
    clear hedges hw hp
    simp only [walks, List.mem_cons, Prod.mk.injEq, List.not_mem_nil, or_false] at he ih ⊢
    rcases he with ⟨rfl, rfl⟩ | ⟨rfl, rfl⟩ | ⟨rfl, rfl⟩ | ⟨rfl, rfl⟩ <;> simp_all

theorem walk_last {c : Nat} (hc : c = 1 ∨ c = 2) :
    (ControlGraph.ofRoutine routine).Walk [0, c, 3] 3 := by
  rcases hc with rfl | rfl
  · exact (ControlGraph.Walk.start.step (c := 1) (by decide +kernel)).step (by decide +kernel)
  · exact (ControlGraph.Walk.start.step (c := 2) (by decide +kernel)).step (by decide +kernel)

theorem wellBehaved : routine.WellBehaved layout where
  reachable := by
    have hids : (ControlGraph.ofRoutine routine).ids = [0, 1, 2, 3] := by decide +kernel
    simp only [hids, List.mem_cons, List.not_mem_nil, or_false]
    rintro b (rfl | rfl | rfl | rfl)
    · exact ⟨_, .start⟩
    · exact ⟨_, ControlGraph.Walk.start.step (by decide +kernel)⟩
    · exact ⟨_, ControlGraph.Walk.start.step (by decide +kernel)⟩
    · exact ⟨_, walk_last (.inl rfl)⟩
  permitted bs b h := by
    have hall : ∀ w ∈ walks,
        routine.Permits layout [] ((ControlGraph.ofRoutine routine).trail w.1) := by decide +kernel
    exact hall (bs, b) (mem_walks h)
  agree bs₁ bs₂ b h₁ h₂ k := by
    have hall : ∀ w₁ ∈ walks, ∀ w₂ ∈ walks, w₁.2 = w₂.2 → ∀ k < layout.values.length,
        (routine.Occupied layout ((ControlGraph.ofRoutine routine).trail w₁.1) k ↔
          routine.Occupied layout ((ControlGraph.ofRoutine routine).trail w₂.1) k) := by
      decide +kernel
    by_cases hk : k < layout.values.length
    · exact hall (bs₁, b) (mem_walks h₁) (bs₂, b) (mem_walks h₂) rfl k hk
    · exact iff_of_false (mt Routine.lt_of_occupied hk) (mt Routine.lt_of_occupied hk)
  outputs bs h := by
    have hall : ∀ w ∈ walks, w.2 = (ControlGraph.ofRoutine routine).last →
        ∀ q ∈ routine.outputs, ∀ k ∈ layout.leavesAt (.ofVariable q.id.name),
          routine.Occupied layout ((ControlGraph.ofRoutine routine).trail w.1) k := by
      decide +kernel
    exact hall (bs, _) (mem_walks h) rfl
  others bs h := by
    have hall : ∀ w ∈ walks, w.2 = (ControlGraph.ofRoutine routine).last →
        ∀ id ∈ Declarations.mentions routine, (∀ q ∈ routine.outputs, q.id.name ≠ id.name) →
          ∀ k ∈ layout.leavesAt (.ofVariable id.name),
            ¬ routine.Occupied layout ((ControlGraph.ofRoutine routine).trail w.1) k := by
      decide +kernel
    exact hall (bs, _) (mem_walks h) rfl
  touched id hid hout := by
    have hall : ∀ id ∈ Declarations.mentions routine,
        (∀ q ∈ routine.outputs, q.id.name ≠ id.name) →
          ∃ k ∈ layout.leavesAt (.ofVariable id.name), routine.history layout [0, 2, 3] k ≠ [] := by
      decide +kernel
    exact ⟨[0, 2, 3], walk_last (.inr rfl), hall id hid hout⟩

theorem accepted_choose :
    routine.WellBehaved layout ∧ env.layout = .ok layout ∧ layout.Filled ∧
      Declarations.faults routine env = [] ∧ ControlGraph.faults routine = [] ∧
      routine.memoryPass env = [] ∧ (routine.verify env .standard).diagnostics = [] := by
  have hl : env.layout = .ok layout := by decide +kernel
  have hf : layout.Filled := by simp [layout, Carry.pairLayout, Layout.Filled]
  have hd : Declarations.faults routine env = [] := by decide +kernel
  have hg : ControlGraph.faults routine = [] := by decide +kernel
  have hm : routine.memoryPass env = [] := by decide +kernel
  exact ⟨wellBehaved, hl, hf, hd, hg, hm,
    Routine.accepted_of_wellBehaved wellBehaved hl hf hd hg hm⟩

end Choose

end Reversible
