import Reversible.Proofs.Flow.Termination
import Reversible.Proofs.Graph.Links
import Reversible.Proofs.Layout.Variables
import Reversible.Proofs.Occupancy.Action
import Reversible.Proofs.Syntax.Sample

/-! # The occupancy of a routine is a least solution

Snapshots are ordered leaf by leaf. Transferring a snapshot through a block is monotone, and only
finitely many places can be causes. So for a graph without faults the solver ends, and the
snapshots that it finds are the least ones that satisfy the equations of the blocks.
-/

namespace Reversible

namespace Snapshot

variable {s t u : Snapshot}

/-- Every leaf of the first snapshot is below its partner in the second. -/
abbrev Le (s t : Snapshot) : Prop := Layout.Le (fun a b : Occupancy => a ≤ b) s t

theorem le_iff_meet : s.Le t ↔ s.meet t = t :=
  Layout.le_iff_zipWith fun _ _ => Occupancy.le_iff_meet

theorem Le.refl (s : Snapshot) : s.Le s := Layout.Le.refl le_refl s

theorem Le.trans (h : s.Le t) (h' : t.Le u) : s.Le u :=
  Layout.Le.trans (fun _ _ _ => le_trans) h h'

theorem Le.antisymm (h : s.Le t) (h' : t.Le s) : s = t :=
  Layout.Le.antisymm (fun _ _ => le_antisymm) h h'

theorem le_meet_left (s t : Snapshot) : s.Le (s.meet t) :=
  Layout.le_zipWith_left le_refl Occupancy.le_meet_left s t

theorem Le.apply (h : s.Le t) (a : SlotAction) : Le (a.apply s) (a.apply t) := by
  rw [a.apply_eq_modify, a.apply_eq_modify]
  exact Layout.Le.modify (fun _ _ => a.change_le) a.path h

theorem Le.foldl_apply (h : s.Le t) (acts : List SlotAction) :
    Le (acts.foldl SlotAction.apply s) (acts.foldl SlotAction.apply t) := by
  induction acts generalizing s t with
  | nil => exact h
  | cons a acts ih => exact ih (h.apply a)

/-- How far a snapshot is above the blank one. -/
def rank (s : Snapshot) : Nat := (s.values.map Occupancy.rank).sum

theorem rank_leaf (key : Name) (o : Occupancy) (rest : Snapshot) :
    rank (.leaf key o rest) = o.rank + rest.rank := by
  simp [rank, Layout.values]

theorem rank_node (key : Name) (ms rest : Snapshot) :
    rank (.node key ms rest) = ms.rank + rest.rank := by
  simp [rank, Layout.values]

theorem rank_le_of_le (h : s.Le t) (hs : Layout.shape s = Layout.shape t) : s.rank ≤ t.rank := by
  induction h with
  | nil l =>
    rw [Layout.eq_nil_of_shape hs.symm]
  | leaf hv _ ih =>
    obtain ⟨-, hs⟩ := Layout.leaf.inj hs |>.2
    rw [rank_leaf, rank_leaf]
    exact Nat.add_le_add (Occupancy.rank_le_of_le hv) (ih hs)
  | node _ _ ihm ih =>
    obtain ⟨-, hm, hs⟩ := Layout.node.inj hs
    rw [rank_node, rank_node]
    exact Nat.add_le_add (ihm hm) (ih hs)

theorem rank_lt_of_le_of_ne (h : s.Le t) (hs : Layout.shape s = Layout.shape t) (hne : s ≠ t) :
    s.rank < t.rank := by
  induction h with
  | nil l => exact absurd (Layout.eq_nil_of_shape hs.symm) hne
  | @leaf key v w l m hv hr ih =>
    obtain ⟨-, hs⟩ := Layout.leaf.inj hs |>.2
    rw [rank_leaf, rank_leaf]
    have hle := Occupancy.rank_le_of_le hv
    by_cases hvw : v = w
    · have hlt := ih hs fun he => hne (by rw [hvw, he])
      omega
    · have hlt := Occupancy.rank_lt_of_le_of_ne hv hvw
      have hle := rank_le_of_le hr hs
      omega
  | @node key ms l ns m hm hr ihm ih =>
    obtain ⟨-, hms, hs⟩ := Layout.node.inj hs
    rw [rank_node, rank_node]
    have hle := rank_le_of_le hm hms
    by_cases he : ms = ns
    · have hlt := ih hs fun he' => hne (by rw [he, he'])
      omega
    · have hlt := ihm hms he
      have hle := rank_le_of_le hr hs
      omega

theorem rank_le_of_values_le {bound : Occupancy} (h : ∀ o ∈ s.values, o ≤ bound) :
    s.rank ≤ s.values.length * bound.rank := by
  have := List.sum_le_card_nsmul (s.values.map Occupancy.rank) bound.rank fun n hn => by
    obtain ⟨o, ho, rfl⟩ := List.mem_map.mp hn
    exact Occupancy.rank_le_of_le (h o ho)
  rwa [List.length_map, smul_eq_mul] at this

end Snapshot

namespace OccupancyProblem

variable {g : ControlGraph} {env : Environment} {inputs : List Ident} {l : Layout Ty}
  {s t : Snapshot}

/-- What brings the inputs into a routine. -/
def arrivals (inputs : List Ident) : List SlotAction :=
  inputs.map fun id => .initializing (.ofVariable id.name) id.span

/-- The problem over a layout, in which the inputs have arrived where the routine begins. -/
def ofLayout (g : ControlGraph) (l : Layout Ty) (inputs : List Ident) : OccupancyProblem where
  graph := g
  blank := l.map fun _ => .unknown
  entry := (arrivals inputs).foldl SlotAction.apply (l.map fun _ => .unknown)

theorem initializeInputs_eq_ok_iff : initializeInputs s inputs = .ok t ↔
    (∀ id ∈ inputs, ∃ slot, Layout.slot s (.ofVariable id.name) = .ok slot) ∧
      t = (arrivals inputs).foldl SlotAction.apply s := by
  induction inputs generalizing s with
  | nil => simp [initializeInputs, arrivals, eq_comm, pure, Except.pure]
  | cons id inputs ih =>
    have hcons : initializeInputs s (id :: inputs) =
        (s.initializeAt (.ofVariable id.name) id.span).bind (initializeInputs · inputs) := rfl
    rw [hcons, Snapshot.initializeAt, Snapshot.overwrite, Layout.update]
    cases h : Layout.slot s (.ofVariable id.name) with
    | error e => simp [Except.bind, h]
    | ok slot =>
      have hs : ∀ path, (∃ slot, Layout.slot (s.modify (.ofVariable id.name)
          (·.overwrite (.initializedAt id.span))) path = .ok slot) ↔
          ∃ slot, Layout.slot s path = .ok slot := fun path =>
        Layout.exists_slot_congr (Layout.shape_modify ..)
      rw [Except.bind, ih]
      simp only [hs, List.forall_mem_cons, h, Except.ok.injEq, exists_eq', true_and]
      rfl

theorem build_eq_ok_iff {p : OccupancyProblem} (hl : env.layout = .ok l) :
    build g env inputs = .ok p ↔
      (∀ id ∈ inputs, env.contains id.name) ∧ p = ofLayout g l inputs := by
  have hb : Snapshot.blank env = .ok (l.map fun _ => .unknown) := by
    rw [Snapshot.blank, hl]
    rfl
  have hs : ∀ name, (∃ slot, Layout.slot (l.map fun _ => Occupancy.unknown) (.ofVariable name) =
      .ok slot) ↔ env.contains name := fun name =>
    (Layout.exists_slot_congr (Layout.shape_map ..)).trans (env.exists_slot_iff hl)
  rw [build, hb]
  simp only [← hs]
  cases hi : initializeInputs (l.map fun _ => .unknown) inputs with
  | error e =>
    simp only [reduceCtorEq, false_iff]
    rintro ⟨h, -⟩
    have := initializeInputs_eq_ok_iff.mpr ⟨h, rfl⟩
    simp [hi] at this
  | ok entry =>
    obtain ⟨h, rfl⟩ := initializeInputs_eq_ok_iff.mp hi
    simp only [Except.ok.injEq]
    constructor
    · intro hp
      exact ⟨h, hp.symm⟩
    · rintro ⟨-, hp⟩
      exact hp.symm

theorem exists_layout_of_build {p : OccupancyProblem} (h : build g env inputs = .ok p) :
    ∃ l, env.layout = .ok l ∧ p = ofLayout g l inputs := by
  cases hl : env.layout with
  | error e =>
    rw [build, Snapshot.blank, hl] at h
    cases h
  | ok l => exact ⟨l, rfl, ((build_eq_ok_iff hl).mp h).2⟩

section Lawful

variable {p : OccupancyProblem} {b : Nat}

/-- A snapshot of the layout in which only places of the routine are causes. -/
def Admits (p : OccupancyProblem) (s : Snapshot) : Prop :=
  Layout.shape s = Layout.shape p.blank ∧ ∀ o ∈ s.values, o ≤ .conflict p.causes p.causes

theorem Admits.apply {a : SlotAction} (h : p.Admits s) (ha : a.span ∈ p.causes) :
    p.Admits (a.apply s) := by
  have hc : p.causes ∪ SortedSet.singleton a.span = p.causes := by
    rw [SortedSet.union_comm, SortedSet.union_eq_right_iff]
    exact fun c hc => SortedSet.mem_singleton.mp hc ▸ ha
  have htop : a.change (.conflict p.causes p.causes) = .conflict p.causes p.causes := by
    cases a with
    | finalizing path span => exact congrArg₂ _ (SortedSet.union_empty _) hc
    | reading path span => rfl
    | initializing path span => exact congrArg₂ _ hc (SortedSet.union_empty _)
  constructor
  · rw [SlotAction.shape_apply, h.1]
  · intro o ho
    obtain ⟨k, hk⟩ := List.mem_iff_getElem?.mp ho
    rw [SlotAction.getElem?_values_apply] at hk
    split at hk
    · obtain ⟨o', ho', rfl⟩ := Option.map_eq_some_iff.mp hk
      exact (a.change_le (h.2 o' (List.mem_of_getElem? ho'))).trans_eq htop
    · exact h.2 o (List.mem_of_getElem? hk)

theorem Admits.transfer (h : p.Admits s) (hb : b ∈ p.graph.ids) : p.Admits (p.transfer s b) := by
  have hspan : ∀ a ∈ p.actions b, a.span ∈ p.causes := by
    intro a ha
    rw [causes, SortedSet.mem_ofList]
    refine List.mem_append_right _ (List.mem_map.mpr ⟨a, ?_, rfl⟩)
    exact List.mem_flatMap.mpr ⟨b, hb, ha⟩
  rw [OccupancyProblem.transfer]
  generalize p.actions b = acts at hspan
  induction acts generalizing s with
  | nil => exact h
  | cons a acts ih =>
    exact ih (h.apply (hspan a List.mem_cons_self)) fun a' ha' =>
      hspan a' (List.mem_cons_of_mem a ha')

theorem Admits.meet (hs : p.Admits s) (ht : p.Admits t) : p.Admits (s.meet t) := by
  have hshape := hs.1.trans ht.1.symm
  constructor
  · exact (Layout.shape_zipWith _ hshape).trans hs.1
  · intro o ho
    obtain ⟨k, hk⟩ := List.mem_iff_getElem?.mp ho
    obtain ⟨a, b, ha, hb, rfl⟩ := Snapshot.exists_of_getElem?_meet hshape hk
    exact Occupancy.meet_le (hs.2 a (List.mem_of_getElem? ha)) (ht.2 b (List.mem_of_getElem? hb))

theorem admits_blank (g : ControlGraph) (l : Layout Ty) (inputs : List Ident) :
    (ofLayout g l inputs).Admits (ofLayout g l inputs).blank := by
  constructor
  · rfl
  · intro o ho
    obtain ⟨v, -, rfl⟩ := List.mem_map.mp (Layout.values_map _ l ▸ ho)
    exact Occupancy.unknown_le _

theorem admits_entry (g : ControlGraph) (l : Layout Ty) (inputs : List Ident) :
    (ofLayout g l inputs).Admits (ofLayout g l inputs).entry := by
  refine ⟨SlotAction.shape_foldl_apply _ _, fun o ho => Occupancy.le_conflict_iff.mpr ?_⟩
  have hmem : ∀ c, c ∈ o.initializers ∨ c ∈ o.finalizers → c ∈ (ofLayout g l inputs).causes := by
    intro c hc
    rw [causes, SortedSet.mem_ofList]
    exact List.mem_append_left _ (List.mem_flatMap.mpr ⟨o, ho, List.mem_append.mpr hc⟩)
  exact ⟨fun c hc => hmem c (.inl hc), fun c hc => hmem c (.inr hc)⟩

theorem admits_initialIn (g : ControlGraph) (l : Layout Ty) (inputs : List Ident) (b : Nat) :
    (ofLayout g l inputs).Admits ((ofLayout g l inputs).initialIn b) := by
  rw [initialIn]
  split
  · exact admits_entry g l inputs
  · exact admits_blank g l inputs

theorem closed_admits (g : ControlGraph) (l : Layout Ty) (inputs : List Ident) :
    (ofLayout g l inputs).flow.Closed (fun _ => (ofLayout g l inputs).Admits)
      (fun _ => (ofLayout g l inputs).Admits) where
  input b _ := admits_initialIn g l inputs b
  output _ _ := admits_blank g l inputs
  combine _ _ _ _ _ _ _ := Admits.meet
  transfer _ _ hb h := h.transfer hb

theorem shape_of_admits (h : (ofLayout g l inputs).Admits s) : l.shape = Layout.shape s :=
  ((Layout.shape_map _ l).symm.trans h.1.symm)

theorem rank_le_height (h : p.Admits s) : s.rank ≤ p.height := by
  refine (Snapshot.rank_le_of_values_le h.2).trans ?_
  rw [height, Layout.length_values_congr h.1]
  refine Nat.mul_le_mul_left _ ?_
  rw [Occupancy.rank]
  omega

theorem blank_le_of_shape (h : l.shape = Layout.shape s) : (ofLayout g l inputs).blank.Le s :=
  Layout.map_le_of_shape (fun _ => Occupancy.unknown_le) h

theorem blank_le_transfer (h : (ofLayout g l inputs).blank.Le s) :
    (ofLayout g l inputs).blank.Le ((ofLayout g l inputs).transfer s b) := by
  refine Snapshot.Le.trans (blank_le_of_shape ?_) (h.foldl_apply _)
  rw [SlotAction.shape_foldl_apply, ofLayout, Layout.shape_map]

/-- Any set of snapshots above the blank one that the equations do not leave is lawful. -/
theorem lawful_of {ok : Snapshot → Prop} (hg : ∀ i j, j ∈ g.predecessors i → i ∈ g.successors j)
    (hle : ∀ s, ok s → (ofLayout g l inputs).blank.Le s)
    (hblank : ok (ofLayout g l inputs).blank) (hin : ∀ b, ok ((ofLayout g l inputs).initialIn b))
    (hmeet : ∀ s t, ok s → ok t → ok (s.meet t))
    (htransfer : ∀ b s, b ∈ g.ids → ok s → ok ((ofLayout g l inputs).transfer s b)) :
    (ofLayout g l inputs).flow.Lawful Snapshot.Le ok where
  refl := Snapshot.Le.refl
  trans _ _ _ := Snapshot.Le.trans
  antisymm _ _ := Snapshot.Le.antisymm
  ok_input n _ := hin n
  ok_output _ _ := hblank
  ok_combine := hmeet
  ok_transfer := htransfer
  le_combine_left v w _ _ := v.le_meet_left w
  le_combine_right v w hv hw :=
    Layout.le_zipWith_right Occupancy.le_meet_right (hle v hv) (hle w hw)
  combine_le _ _ _ := Layout.zipWith_le fun _ _ _ => Occupancy.meet_le
  transfer_le _ _ _ _ h := h.foldl_apply _
  output_le _ v _ := hle v
  mem_targets m n _ _ h := hg n m h

theorem lawful_admits (hg : ∀ i j, j ∈ g.predecessors i → i ∈ g.successors j) :
    (ofLayout g l inputs).flow.Lawful Snapshot.Le (ofLayout g l inputs).Admits :=
  lawful_of hg (fun _ h => blank_le_of_shape (shape_of_admits h)) (admits_blank g l inputs)
    (admits_initialIn g l inputs) (fun _ _ => Admits.meet) fun _ _ hb h => h.transfer hb

theorem lawful_blank_le (hg : ∀ i j, j ∈ g.predecessors i → i ∈ g.successors j) :
    (ofLayout g l inputs).flow.Lawful Snapshot.Le (ofLayout g l inputs).blank.Le :=
  lawful_of hg (fun _ h => h) (.refl _)
    (fun b => blank_le_of_shape (shape_of_admits (admits_initialIn g l inputs b)))
    (fun s t hs _ => hs.trans (s.le_meet_left t))
    fun _ _ _ => blank_le_transfer

end Lawful

section Solution

variable {ins outs : Nat → Snapshot} {b : Nat}

/-- The equations of the blocks: what is known before a block is what is known at the start, joined
with what is known after each block that leads to it. -/
def Satisfies (p : OccupancyProblem) (ins outs : Nat → Snapshot) : Prop :=
  ∀ b ∈ p.graph.ids,
    ins b = ((p.graph.predecessors b).map outs).foldl Snapshot.meet (p.initialIn b) ∧
      outs b = p.transfer (ins b) b

/-- The snapshots of a solver that has ended. -/
structure Solves (p : OccupancyProblem) (ins outs : Nat → Snapshot) : Prop where
  input?_eq : ∀ b, p.solve.input? b = if b ∈ p.graph.ids then some (ins b) else none
  output?_eq : ∀ b, p.solve.output? b = if b ∈ p.graph.ids then some (outs b) else none
  satisfies : p.Satisfies ins outs

theorem Solves.of_output? {p : OccupancyProblem} {s : Snapshot} (h : p.Solves ins outs)
    (hs : p.solve.output? b = some s) : b ∈ p.graph.ids ∧ outs b = s := by
  rw [h.output?_eq] at hs
  exact (Option.ite_none_right_eq_some.mp hs).imp_right Option.some.inj

theorem pending_solve (hg : ∀ i j, j ∈ g.predecessors i → i ∈ g.successors j) :
    (ofLayout g l inputs).solve.pending = [] :=
  FlowProblem.pending_solve_eq_nil (lawful_admits hg)
    (fun _ _ hs ht hle hne => Snapshot.rank_lt_of_le_of_ne hle (hs.1.trans ht.1.symm) hne)
    fun _ => rank_le_height

theorem mem_ids_of_mem_predecessors {i j : Nat} (h : j ∈ g.predecessors i) : j ∈ g.ids := by
  have := (ControlGraph.lt_size_of_mem_predecessors h).2
  exact List.mem_range.mpr (by omega)

theorem exists_solves (l : Layout Ty) (inputs : List Ident)
    (hg : ∀ i j, j ∈ g.predecessors i → i ∈ g.successors j) :
    ∃ ins outs, (ofLayout g l inputs).Solves ins outs := by
  have hL : (ofLayout g l inputs).flow.Lawful _ _ := lawful_admits hg
  have hset := FlowProblem.Settling.solve hL (ofLayout g l inputs).height
  obtain ⟨ins, outs, hin, hout⟩ := hset.exists_values
  refine ⟨ins, outs, hin, hout, fun b hb => ?_⟩
  have hpred : (g.predecessors b).filter (· ∈ g.ids) = g.predecessors b :=
    List.filter_eq_self.mpr fun c hc => decide_eq_true (mem_ids_of_mem_predecessors hc)
  have heq := hset.equations hL (pending_solve hg) hb hin hout
  change ins b = (((g.predecessors b).filter (· ∈ g.ids)).map outs).foldl _ _ ∧ _ at heq
  rwa [hpred] at heq

theorem le_foldl_meet (s : Snapshot) (ts : List Snapshot) : s.Le (ts.foldl Snapshot.meet s) := by
  induction ts generalizing s with
  | nil => exact .refl s
  | cons t ts ih =>
    exact (s.le_meet_left t).trans (ih (s.meet t))

section Facts

variable (h : (ofLayout g l inputs).Solves ins outs) (hb : b ∈ g.ids)
include h hb

theorem Solves.input? : (ofLayout g l inputs).solve.input? b = some (ins b) :=
  (h.input?_eq b).trans (if_pos hb)

theorem Solves.output? : (ofLayout g l inputs).solve.output? b = some (outs b) :=
  (h.output?_eq b).trans (if_pos hb)

theorem Solves.initialIn_le : ((ofLayout g l inputs).initialIn b).Le (ins b) :=
  (h.satisfies b hb).1 ▸ le_foldl_meet _ _

theorem Solves.of_closed {P Q : Nat → Snapshot → Prop}
    (hC : (ofLayout g l inputs).flow.Closed P Q) : P b (ins b) ∧ Q b (outs b) :=
  have hs := (hC.solve (ofLayout g l inputs).height).2
  ⟨(hs b _).1 (h.input? hb), (hs b _).2 (h.output? hb)⟩

theorem Solves.pred_le {c : Nat} (hg : ∀ i j, j ∈ g.predecessors i → i ∈ g.successors j)
    (hc : c ∈ g.predecessors b) : (outs c).Le (ins b) := by
  have hL : (ofLayout g l inputs).flow.Lawful Snapshot.Le _ := lawful_admits hg
  rw [(h.satisfies b hb).1]
  refine (hL.le_foldl_combine (hL.ok_input b hb) fun w hw => ?_).2 _ (List.mem_map_of_mem hc)
  obtain ⟨q, hq, rfl⟩ := List.mem_map.mp hw
  exact (h.of_closed (mem_ids_of_mem_predecessors hq) hL.closed).2

end Facts

/-- The snapshots of the solver are the least ones that satisfy the equations. -/
theorem Solves.le_of_satisfies {ins' outs' : Nat → Snapshot}
    (h : (ofLayout g l inputs).Solves ins outs)
    (hg : ∀ i j, j ∈ g.predecessors i → i ∈ g.successors j)
    (h' : (ofLayout g l inputs).Satisfies ins' outs') (hb : b ∈ g.ids) :
    (ins b).Le (ins' b) ∧ (outs b).Le (outs' b) := by
  have hL : (ofLayout g l inputs).flow.Lawful Snapshot.Le _ := lawful_blank_le hg
  have hin : ∀ n ∈ g.ids, ((ofLayout g l inputs).initialIn n).Le (ins' n) := fun n hn =>
    (h' n hn).1 ▸ le_foldl_meet _ _
  have hout : ∀ n ∈ g.ids, (ofLayout g l inputs).blank.Le (outs' n) := fun n hn => by
    rw [(h' n hn).2]
    exact blank_le_transfer ((hL.ok_input n hn).trans (hin n hn))
  have hsrc : ∀ n ∈ g.ids, ∀ m ∈ g.ids, m ∈ g.predecessors n → (outs' m).Le (ins' n) := by
    intro n hn m _ hm
    rw [(h' n hn).1]
    refine (hL.le_foldl_combine (hL.ok_input n hn) fun w hw => ?_).2 _ (List.mem_map_of_mem hm)
    obtain ⟨m', hm', rfl⟩ := List.mem_map.mp hw
    exact hout m' (mem_ids_of_mem_predecessors hm')
  have hrun := FlowProblem.solve_le hL (ofLayout g l inputs).height hin hout hsrc
    fun n hn => (h' n hn).2 ▸ .refl _
  exact ⟨(hrun b (ins b)).1 (h.input? hb), (hrun b (outs b)).2 (h.output? hb)⟩

/-- If an environment has a layout and the graph of a routine no fault, the inputs that the
environment knows can be brought in and the solver ends. It gives the blocks of the graph, and no
others, the least snapshots that satisfy the equations. -/
theorem solve_isLeast {r : Routine} (hl : env.layout = .ok l) (hg : ControlGraph.faults r = [])
    (inputs : List Ident) :
    ((∀ id ∈ inputs, env.contains id.name) → ∃ p, build (.ofRoutine r) env inputs = .ok p) ∧
      ∀ p, build (.ofRoutine r) env inputs = .ok p →
        p.graph = .ofRoutine r ∧ p.solve.pending = [] ∧ ∃ ins outs, p.Solves ins outs ∧
          ∀ ins' outs', p.Satisfies ins' outs' → ∀ b ∈ p.graph.ids,
            (ins b).meet (ins' b) = ins' b ∧ (outs b).meet (outs' b) = outs' b := by
  constructor
  · intro hi
    exact ⟨_, (build_eq_ok_iff hl).mpr ⟨hi, rfl⟩⟩
  · intro p hp
    obtain ⟨-, rfl⟩ := (build_eq_ok_iff hl).mp hp
    have hlink := ControlGraph.mem_successors_of_mem_predecessors hg
    obtain ⟨ins, outs, hs⟩ := exists_solves l inputs hlink
    refine ⟨rfl, pending_solve hlink, ins, outs, hs, ?_⟩
    intro ins' outs' h' b hb
    obtain ⟨hin, hout⟩ := hs.le_of_satisfies hlink h' hb
    exact ⟨Snapshot.le_iff_meet.mp hin, Snapshot.le_iff_meet.mp hout⟩

end Solution

end OccupancyProblem

/-! A routine that carries a pair around a loop: out of its slot as a whole, back into it member
by member, and at last into the output. -/

namespace Carry

open Sample (span slot member condition)

def pair : Ty := .record [("x", .int), ("y", .int)]

def env : Environment where
  types := ∅
  vars := ((∅ : NameMap Ty).insert "p" pair).insert "q" pair |>.insert "t" pair

def pairLayout : Layout Ty := .leaf "x" .int (.leaf "y" .int .nil)

def layout : Layout Ty := .node "p" pairLayout (.node "q" pairLayout (.node "t" pairLayout .nil))

def routine : Routine where
  id := ⟨"carry", span 0⟩
  inputs := [⟨⟨"p", span 1⟩, none, span 1⟩]
  outputs := [⟨⟨"q", span 2⟩, none, span 2⟩]
  body := [
    .jump .forward ⟨"enter", span 3⟩ (span 3),
    .branch .backward ⟨"enter", span 4⟩ ⟨"again", span 4⟩ (condition 4) (span 4),
    .assign (slot "t" 5) (slot "p" 6) none (span 5),
    .assign (member "p" "x" 7) (member "t" "x" 8) none (span 7),
    .assign (member "p" "y" 9) (member "t" "y" 10) none (span 9),
    .branch .forward ⟨"again", span 11⟩ ⟨"leave", span 11⟩ (condition 11) (span 11),
    .jump .backward ⟨"leave", span 12⟩ (span 12),
    .assign (slot "q" 13) (slot "p" 14) none (span 13)]
  span := span 0

theorem solve_isLeast_carry : env.layout = .ok layout ∧ ControlGraph.faults routine = [] ∧
    ∃ p, OccupancyProblem.build (.ofRoutine routine) env [⟨"p", span 1⟩] = .ok p ∧
      p.solve.pending = [] ∧ ∃ ins outs, p.Solves ins outs := by
  have hl : env.layout = .ok layout := by decide +kernel
  have hg : ControlGraph.faults routine = [] := by decide +kernel
  obtain ⟨hbuild, hsolve⟩ := OccupancyProblem.solve_isLeast hl hg [⟨"p", span 1⟩]
  obtain ⟨p, hp⟩ := hbuild (by decide +kernel)
  obtain ⟨-, hpend, ins, outs, hs, -⟩ := hsolve p hp
  exact ⟨hl, hg, p, hp, hpend, ins, outs, hs⟩

end Carry

end Reversible
