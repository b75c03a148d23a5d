import Reversible.Proofs.Verify.Replay

/-! # Structures that are used as a whole

A structure is read through its leaves, and leaves about which nothing is known do not count. So a
routine that is accepted may finalize or use a structure, or end with it as an output, when only
some of its leaves are initialized. But the others have been left alone: each leaf on which
something is done, on any way to that point, is initialized there.
-/

namespace Reversible

namespace Snapshot

variable {s t : Snapshot} {k : Nat} {l : Layout Ty} {a : SlotAction}

def Known (s : Snapshot) (k : Nat) : Prop := s.MayHold k ∨ s.MayLack k

theorem Known.mono (h : s.Le t) (hs : Layout.shape s = Layout.shape t) (hk : s.Known k) :
    t.Known k :=
  hk.imp (·.mono h hs) (·.mono h hs)

theorem known_apply_of_operationOn? (hs : Layout.shape s = l.shape)
    (ha : (a.operationOn? l k).isSome) : Known (a.apply s) k := by
  have hk : k ∈ Layout.leavesAt s a.path := by
    rw [Layout.leavesAt_congr hs]
    by_contra hk
    simp [SlotAction.operationOn?, hk] at ha
  cases a with
  | finalizing path span => exact .inr (SlotAction.mayLack_apply_finalizing hk)
  | reading path span => simp [SlotAction.operationOn?, SlotAction.operation?] at ha
  | initializing path span => exact .inl (SlotAction.mayHold_apply_initializing hk)

theorem Known.apply (hs : Layout.shape s = l.shape) (hk : s.Known k) : Known (a.apply s) k := by
  cases ha : a.operationOn? l k with
  | some op => exact known_apply_of_operationOn? hs (by rw [ha]; rfl)
  | none =>
    rw [Known, MayHold, MayLack, SlotAction.getElem?_values_apply_of_operationOn? hs ha]
    exact hk

theorem known_foldl_apply_iff {acts : List SlotAction} (hs : Layout.shape s = l.shape) :
    Known (acts.foldl SlotAction.apply s) k ↔
      s.Known k ∨ ∃ a ∈ acts, (a.operationOn? l k).isSome := by
  constructor
  · intro hk
    by_cases hop : ∃ a ∈ acts, (a.operationOn? l k).isSome
    · exact .inr hop
    · have hnone : ∀ a ∈ acts, a.operationOn? l k = none := by simpa using hop
      rw [Known, MayHold, MayLack,
        SlotAction.getElem?_values_foldl_apply_of_operationOn? hs hnone] at hk
      exact .inl hk
  · intro h
    induction acts generalizing s with
    | nil =>
      rcases h with hk | ⟨a, ha, -⟩
      · exact hk
      · cases ha
    | cons a acts ih =>
      refine ih ((SlotAction.shape_apply s a).trans hs) ?_
      rcases h with hk | ⟨c, hc, hop⟩
      · exact .inl (hk.apply hs)
      · rcases List.mem_cons.mp hc with rfl | hc
        · exact .inl (known_apply_of_operationOn? hs hop)
        · exact .inr ⟨c, hc, hop⟩

theorem known_or_of_meet (h : Layout.shape s = Layout.shape t) (hk : (s.meet t).Known k) :
    s.Known k ∨ t.Known k := by
  rcases hk with hk | hk
  · exact (mayHold_or_of_meet h hk).imp .inl .inl
  · exact (mayLack_or_of_meet h hk).imp .inr .inr

section Held

variable {leaves : List Nat} (hc : s.HasCauses) (h : s.Held leaves)
include hc h

theorem Held.exists_isInitialized :
    ∃ k ∈ leaves, ∃ o, s.values[k]? = some o ∧ o.isInitialized := by
  obtain ⟨k, hk, o, ho, hm⟩ := h.1
  refine ⟨k, hk, o, ho, (Occupancy.isInitialized_iff (hc o (List.mem_of_getElem? ho))).mpr ⟨hm, ?_⟩⟩
  exact fun hl => h.2 k hk ⟨o, ho, hl⟩

theorem Held.isInitialized_iff {o : Occupancy} (hk : k ∈ leaves) (ho : s.values[k]? = some o) :
    (o.isInitialized ↔ s.Known k) ∧ (o.isUnknown ↔ ¬ s.Known k) := by
  have hcauses := hc o (List.mem_of_getElem? ho)
  have hl : ¬ o.MayLack := fun hl => h.2 k hk ⟨o, ho, hl⟩
  have hknown : s.Known k ↔ o.MayHold := by
    constructor
    · rintro (⟨o', ho', hm⟩ | hlack)
      · obtain rfl := Option.some.inj (ho.symm.trans ho')
        exact hm
      · exact absurd hlack (h.2 k hk)
    · exact fun hm => .inl ⟨o, ho, hm⟩
  rw [hknown, Occupancy.isInitialized_iff hcauses, Occupancy.isUnknown_iff hcauses]
  exact ⟨and_iff_left hl, and_iff_right hl⟩

end Held

end Snapshot

theorem SlotAction.held_of_fault? {s : Snapshot} {a : SlotAction} {slot : Slot Occupancy}
    (hs : s.HasCauses) (ha : a.operation? ≠ some .initialization)
    (hslot : Layout.slot s a.path = .ok slot) (hf : a.fault? s = none) :
    s.Held (s.leavesAt a.path) := by
  have hfits := (fault?_eq_none_iff hs hslot).mp hf
  cases a with
  | finalizing path span => exact hfits
  | reading path span => exact hfits
  | initializing path span => exact absurd rfl ha

namespace Routine

open Relation (ReflTransGen)

variable {r : Routine} {env : Environment} {config : QueueConfig} {l : Layout Ty}
  {ins outs : Nat → Snapshot} {b c k : Nat} {done : List SlotAction} {s : Snapshot}
  {path : ResourcePath}

/-- Something is done to a leaf on some way to the block `b`: the leaf arrives with an input, or a
block on the way operates on it. -/
def TouchedBefore (r : Routine) (l : Layout Ty) (b k : Nat) : Prop :=
  (r.LeadsTo 0 b ∧ r.arrival l k ≠ []) ∨
    ∃ c ∈ (ControlGraph.ofRoutine r).predecessors b, ∃ d, r.LeadsTo d c ∧
      ∃ a ∈ (ControlGraph.ofRoutine r).trail [d], (a.operationOn? l k).isSome

/-- Something is done to a leaf on some way to a point of the block `b`, the one after the actions
`done`. -/
def Touched (r : Routine) (l : Layout Ty) (b : Nat) (done : List SlotAction) (k : Nat) : Prop :=
  r.TouchedBefore l b k ∨ ∃ a ∈ done, (a.operationOn? l k).isSome

theorem TouchedBefore.of_predecessor (hc : c ∈ (ControlGraph.ofRoutine r).predecessors b)
    (hk : r.Touched l c ((ControlGraph.ofRoutine r).trail [c]) k) : r.TouchedBefore l b k := by
  rcases hk with (⟨h0, harr⟩ | ⟨d, hd, e, he, hop⟩) | hop
  · exact .inl ⟨h0.tail hc, harr⟩
  · exact .inr ⟨c, hc, e, he.tail hd, hop⟩
  · exact .inr ⟨c, hc, c, .refl, hop⟩

/-- At a point of a block some of the leaves are initialized. They are those that something is done
to on some way to that point, and nothing is known of the others. -/
structure Whole (r : Routine) (l : Layout Ty) (b : Nat) (done : List SlotAction) (s : Snapshot)
    (leaves : List Nat) : Prop where
  exists_initialized : ∃ k ∈ leaves, ∃ o, s.values[k]? = some o ∧ o.isInitialized
  initialized_iff : ∀ k ∈ leaves, ∃ o, s.values[k]? = some o ∧
    (o.isInitialized ↔ r.Touched l b done k) ∧ (o.isUnknown ↔ ¬ r.Touched l b done k)

theorem not_known_blank : ¬ Snapshot.Known (l.map fun _ => .unknown) k :=
  not_or.mpr ⟨not_mayHold_blank, not_mayLack_blank⟩

/-- The solver gets to know of a leaf only where something is done to it. -/
theorem closed_touched : (r.problem l).flow.Closed
    (fun b s => (Layout.shape s = l.shape ∧ s.HasCauses) ∧ (s.Known k → r.TouchedBefore l b k))
    (fun b s => (Layout.shape s = l.shape ∧ s.HasCauses) ∧
      (s.Known k → r.Touched l b ((ControlGraph.ofRoutine r).trail [b]) k)) := by
  have hC := closed_hasCauses (r := r) (l := l)
  constructor
  · intro b hb
    refine ⟨hC.input b hb, fun hk => ?_⟩
    change ((r.problem l).initialIn b).Known k at hk
    rw [OccupancyProblem.initialIn] at hk
    split at hk
    · next hfirst =>
      have hinput := mayHold_entry_iff.mp (hk.resolve_right not_mayLack_entry)
      exact .inl ⟨hfirst ▸ .refl, by simp [arrival, hinput]⟩
    · exact absurd hk not_known_blank
  · intro b hb
    exact ⟨hC.output b hb, fun hk => absurd hk not_known_blank⟩
  · rintro b c s t hb hc hcb ⟨hs, hsk⟩ ⟨ht, htk⟩
    refine ⟨hC.combine b c s t hb hc hcb hs ht, fun hk => ?_⟩
    rcases Snapshot.known_or_of_meet (hs.1.trans ht.1.symm) hk with hk | hk
    · exact hsk hk
    · exact .of_predecessor hcb (htk hk)
  · rintro b s hb ⟨hs, hsk⟩
    refine ⟨hC.transfer b s hb hs, fun hk => ?_⟩
    rw [Touched, ControlGraph.trail_singleton]
    exact ((Snapshot.known_foldl_apply_iff hs.1).mp hk).imp_left hsk

section Solution

variable (h : (r.problem l).Solves ins outs)
include h

theorem known_outs (hb : b ∈ (ControlGraph.ofRoutine r).ids)
    (hk : (ins b).Known k ∨
      ∃ a ∈ (ControlGraph.ofRoutine r).trail [b], (a.operationOn? l k).isSome) :
    (outs b).Known k := by
  rw [outs_eq h hb]
  exact (Snapshot.known_foldl_apply_iff (ins_hasCauses h hb).1).mpr hk

theorem touchedBefore_of_known (hb : b ∈ (ControlGraph.ofRoutine r).ids) (hk : (ins b).Known k) :
    r.TouchedBefore l b k :=
  (h.of_closed hb closed_touched).1.2 hk

theorem known_first (hk : r.arrival l k ≠ []) : (ins 0).Known k := by
  refine .inl ((covers_first h).1 ?_)
  rw [arrival] at hk ⊢
  split
  · rfl
  · next hno => simp [hno] at hk

variable (hg : ControlGraph.faults r = [])
include hg

theorem known_ins_of_predecessor (hc : c ∈ (ControlGraph.ofRoutine r).predecessors b)
    (hk : (outs c).Known k) : (ins b).Known k :=
  hk.mono (outs_le_ins h hg hc).1 (outs_le_ins h hg hc).2

theorem known_outs_of_leadsTo (hcb : r.LeadsTo c b) (hk : (outs c).Known k) :
    (outs b).Known k := by
  induction hcb with
  | refl => exact hk
  | tail _ hde ih =>
    have he := List.mem_range.mpr (ControlGraph.lt_size_of_mem_predecessors hde).1
    exact known_outs h he (.inl (known_ins_of_predecessor h hg hde ih))

theorem known_of_touchedBefore (hk : r.TouchedBefore l b k) : (ins b).Known k := by
  rcases hk with ⟨h0, harr⟩ | ⟨c, hc, d, hd, hop⟩
  · have hfirst := known_first h harr
    -- either this is the first block, or what is known there comes through the last block before
    rcases ReflTransGen.cases_tail h0 with rfl | ⟨c, h0c, hc⟩
    · exact hfirst
    · have h0ids := List.mem_range.mpr (ControlGraph.size_pos r)
      have hout := known_outs_of_leadsTo h hg h0c (known_outs h h0ids (.inl hfirst))
      exact known_ins_of_predecessor h hg hc hout
  · have hdids := hd.mem_ids (OccupancyProblem.mem_ids_of_mem_predecessors hc)
    have hout := known_outs_of_leadsTo h hg hd (known_outs h hdids (.inr hop))
    exact known_ins_of_predecessor h hg hc hout

/-- Nothing is known of a leaf if and only if nothing is done to it on any way. -/
theorem known_iff_touched (hb : b ∈ (ControlGraph.ofRoutine r).ids) :
    Snapshot.Known (done.foldl SlotAction.apply (ins b)) k ↔ r.Touched l b done k := by
  rw [Snapshot.known_foldl_apply_iff (ins_hasCauses h hb).1, Touched]
  exact or_congr_left ⟨touchedBefore_of_known h hb, known_of_touchedBefore h hg⟩

theorem whole_of_held (hb : b ∈ (ControlGraph.ofRoutine r).ids)
    (hheld : Snapshot.Held (done.foldl SlotAction.apply (ins b)) (l.leavesAt path)) :
    r.Whole l b done (done.foldl SlotAction.apply (ins b)) (l.leavesAt path) := by
  obtain ⟨hshape, hcauses⟩ := ins_hasCauses h hb
  have hc := SlotAction.hasCauses_foldl_apply done hcauses
  refine ⟨hheld.exists_isInitialized hc, fun k hk => ?_⟩
  have hlt : k < (done.foldl SlotAction.apply (ins b)).values.length := by
    rw [Layout.length_values_congr ((SlotAction.shape_foldl_apply done _).trans hshape)]
    exact Layout.lt_of_mem_leavesAt hk
  have ho := List.getElem?_eq_getElem hlt
  refine ⟨_, ho, ?_⟩
  rw [← known_iff_touched h hg hb]
  exact hheld.isInitialized_iff hc hk ho

end Solution

namespace Accepted

variable (h : r.Accepted env config l ins outs)
include h

theorem whole_of_action {a : SlotAction} {rest : List SlotAction}
    (hb : b ∈ (ControlGraph.ofRoutine r).ids)
    (htrail : (ControlGraph.ofRoutine r).trail [b] = done ++ a :: rest)
    (ha : a.operation? ≠ some .initialization) (hslot : ∃ slot, l.slot a.path = .ok slot) :
    r.Whole l b done (SlotAction.replayed (ins b) done) (l.leavesAt a.path) := by
  obtain ⟨hdone, hrest⟩ := SlotAction.replay_prefix (htrail ▸ h.replay_eq b hb)
  rw [SlotAction.replayed_eq hdone] at hrest ⊢
  obtain ⟨hshape, hcauses⟩ := ins_hasCauses h.solves hb
  have hs := (SlotAction.shape_foldl_apply done (ins b)).trans hshape
  obtain ⟨slot, hslot⟩ := (Layout.exists_slot_congr hs).mpr hslot
  refine whole_of_held h.solves h.linked hb ?_
  rw [← Layout.leavesAt_congr hs]
  exact SlotAction.held_of_fault? (SlotAction.hasCauses_foldl_apply done hcauses) ha hslot
    (SlotAction.replay_cons_eq_nil_iff.mp hrest).1

theorem whole_of_output {q : Param} (hq : q ∈ r.outputs) :
    r.Whole l (ControlGraph.ofRoutine r).last
      ((ControlGraph.ofRoutine r).trail [(ControlGraph.ofRoutine r).last])
      (outs (ControlGraph.ofRoutine r).last) (l.leavesAt (.ofVariable q.id.name)) := by
  have hend := (ending_solve_eq_nil_iff h.solves h.layout_eq h.declared).mp h.ending_eq q.id.name
    (Declarations.exists_mention_of_mem_params (.inr hq))
  rw [if_pos (Declarations.isOutput_iff.mpr ⟨q, hq, rfl⟩)] at hend
  rw [outs_eq h.solves (last_mem_ids r)] at hend ⊢
  exact whole_of_held h.solves h.linked (last_mem_ids r) hend

end Accepted

/-- If nothing is reported for a routine, then wherever a slot is finalized or used, some leaf at or
below it is initialized. The leaves that are initialized are those that something is done to on some
way to that point, and of the others nothing is known. The same holds of every output when the
routine ends. -/
theorem wholes_initialized (h : (r.verify env config).diagnostics = []) :
    ∃ l, env.layout = .ok l ∧
      (∀ b ∈ (ControlGraph.ofRoutine r).ids, ∃ s, (r.verify env config).before? b = some s ∧
        ∀ done a rest, (ControlGraph.ofRoutine r).trail [b] = done ++ a :: rest →
          a.operation? ≠ some .initialization → (∃ slot, l.slot a.path = .ok slot) →
          r.Whole l b done (SlotAction.replayed s done) (l.leavesAt a.path)) ∧
      ∃ s, (r.verify env config).after? (ControlGraph.ofRoutine r).last = some s ∧
        ∀ q ∈ r.outputs, r.Whole l (ControlGraph.ofRoutine r).last
          ((ControlGraph.ofRoutine r).trail [(ControlGraph.ofRoutine r).last]) s
          (l.leavesAt (.ofVariable q.id.name)) := by
  obtain ⟨l, ins, outs, ha⟩ := exists_accepted h
  refine ⟨l, ha.layout_eq, fun b hb => ⟨ins b, ha.before?_eq hb, ?_⟩, _,
    ha.after?_eq (last_mem_ids r), fun q hq => ha.whole_of_output hq⟩
  intro done a rest htrail hop hslot
  exact ha.whole_of_action hb htrail hop hslot

end Routine

/-- Around the loop `p` is filled member by member. It is whole when it is moved to the output,
since both of its leaves arrive with the input. -/
theorem Carry.wholes_initialized_carry :
    (Carry.routine.verify Carry.env .standard).diagnostics = [] ∧
      ∃ s, (Carry.routine.verify Carry.env .standard).before? 2 = some s ∧
        ∀ k ∈ [0, 1], ∃ o, s.values[k]? = some o ∧ o.isInitialized := by
  have h : (Carry.routine.verify Carry.env .standard).diagnostics = [] := by decide +kernel
  have hlayout : Carry.env.layout = .ok Carry.layout := by decide +kernel
  have htrail : (ControlGraph.ofRoutine Carry.routine).trail [2] =
      [] ++ .finalizing (.ofVariable "p") (Sample.span 14) ::
        [.initializing (.ofVariable "q") (Sample.span 13)] := by
    decide +kernel
  have hleads : Carry.routine.LeadsTo 0 2 :=
    .tail (.single (by decide +kernel : 0 ∈ (ControlGraph.ofRoutine Carry.routine).predecessors 1))
      (by decide +kernel)
  have hinput : ∀ k ∈ [0, 1], k ∈ Carry.layout.leavesAt (.ofVariable "p") ∧
      Carry.routine.arrival Carry.layout k ≠ [] := by
    decide +kernel
  obtain ⟨l, hl, hblocks, -⟩ := Routine.wholes_initialized h
  obtain rfl := Except.ok.inj (hlayout.symm.trans hl)
  obtain ⟨s, hs, hwhole⟩ := hblocks 2 (by decide +kernel)
  refine ⟨h, s, hs, fun k hk => ?_⟩
  obtain ⟨hleaf, harr⟩ := hinput k hk
  obtain ⟨o, ho, hiff, -⟩ := (hwhole [] _ _ htrail (by decide) ⟨_, rfl⟩).initialized_iff k hleaf
  exact ⟨o, ho, hiff.mpr (.inl (.inl ⟨hleads, harr⟩))⟩

namespace Partial

open Sample (span slot member)

def env : Environment where
  types := ∅
  vars := ((∅ : NameMap Ty).insert "q" Carry.pair).insert "t" Carry.pair

def layout : Layout Ty := .node "q" Carry.pairLayout (.node "t" Carry.pairLayout .nil)

/-- One member of `t` is initialized. Then `t` is read and finalized as a whole, and `q` is put out
with one member, too. -/
def routine : Routine where
  id := ⟨"partial", span 0⟩
  inputs := []
  outputs := [⟨⟨"q", span 1⟩, none, span 1⟩]
  body := [
    .assign (member "t" "x" 2) (.int 5 (span 3)) none (span 2),
    .assign (.int 6 (span 4)) (.int 6 (span 5)) (some ⟨.add, .value (slot "t" 6), span 6⟩) (span 4),
    .assign (.int 5 (span 7)) (slot "t" 8) none (span 7),
    .assign (member "q" "x" 9) (.int 6 (span 10)) none (span 9)]
  span := span 0

def fill : SlotAction := .initializing ⟨"t", ["x"]⟩ (span 2)

def use : SlotAction := .reading (.ofVariable "t") (span 6)

def finish : SlotAction := .finalizing (.ofVariable "t") (span 8)

def put : SlotAction := .initializing ⟨"q", ["x"]⟩ (span 9)

end Partial

/-- In an accepted routine a leaf can be unknown where its structure is used, where it is finalized
and where it is put out. -/
theorem Routine.wholes_partial : (Partial.routine.verify Partial.env .standard).diagnostics = [] ∧
    Partial.env.layout = .ok Partial.layout ∧
    (ControlGraph.ofRoutine Partial.routine).trail [0] =
      [Partial.fill, Partial.use, Partial.finish, Partial.put] ∧
    3 ∈ Partial.layout.leavesAt (.ofVariable "t") ∧ 1 ∈ Partial.layout.leavesAt (.ofVariable "q") ∧
    (∃ s, (Partial.routine.verify Partial.env .standard).before? 0 = some s ∧
      (SlotAction.replayed s [Partial.fill]).values[3]? = some .unknown ∧
      (SlotAction.replayed s [Partial.fill, Partial.use]).values[3]? = some .unknown) ∧
    ∃ s, (Partial.routine.verify Partial.env .standard).after?
        (ControlGraph.ofRoutine Partial.routine).last = some s ∧
      s.values[1]? = some .unknown := by
  have hbefore : ((Partial.routine.verify Partial.env .standard).before? 0).map (fun s =>
      ((SlotAction.replayed s [Partial.fill]).values[3]?,
        (SlotAction.replayed s [Partial.fill, Partial.use]).values[3]?)) =
      some (some .unknown, some .unknown) := by
    decide +kernel
  have hafter : ((Partial.routine.verify Partial.env .standard).after?
      (ControlGraph.ofRoutine Partial.routine).last).map (·.values[1]?) =
      some (some .unknown) := by
    decide +kernel
  obtain ⟨s, hs, hvalues⟩ := Option.map_eq_some_iff.mp hbefore
  obtain ⟨t, ht, hvalue⟩ := Option.map_eq_some_iff.mp hafter
  obtain ⟨hfill, huse⟩ := Prod.ext_iff.mp hvalues
  exact ⟨by decide +kernel, by decide +kernel, by decide +kernel, by decide, by decide,
    ⟨s, hs, hfill, huse⟩, t, ht, hvalue⟩

end Reversible
