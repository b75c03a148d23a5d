import Reversible.Proofs.Graph.Grammar

/-! # What becomes of the instructions of a body

The blocks of any body, with faults or without, are slices of it in order. Whether a block is open
at an instruction is decided by the instructions before it. An instruction is in a block if one is
open there or if it is an entry point, and an entry point begins a block if none is open. So the
instructions in no block are the ones reported as outside, and the entry points that begin no block
are the ones reported as inside.
-/

namespace Reversible

namespace Block

variable {position : Nat} {current : Option Block} {b c : Block} {body whole : List Instruction}
  {i : Instruction}

def stop (b : Block) : Nat := b.start + b.instructions.length

def Holds (b : Block) (k : Nat) : Prop := b.start ≤ k ∧ k < b.stop

instance (b : Block) (k : Nat) : Decidable (b.Holds k) := inferInstanceAs (Decidable (_ ∧ _))

def Begins (b : Block) (k : Nat) : Prop := b.start = k ∧ b.instructions ≠ []

instance (b : Block) (k : Nat) : Decidable (b.Begins k) := inferInstanceAs (Decidable (_ ∧ _))

def IsSlice (b : Block) (body : List Instruction) : Prop :=
  ∃ before after, body = before ++ b.instructions ++ after ∧ before.length = b.start

@[simp] theorem start_push (c : Block) (i : Instruction) : (c.push i).start = c.start := rfl

@[simp] theorem stop_push (c : Block) (i : Instruction) : (c.push i).stop = c.stop + 1 := by
  simp [stop, push, Nat.add_assoc]

/-! ### Slices -/

theorem isSlice_of_mem_cut (before : List Instruction) (hwhole : whole = before ++ body)
    (hposition : before.length = position)
    (hc : ∀ c, current = some c →
      ∃ first, before = first ++ c.instructions ∧ first.length = c.start)
    (hb : b ∈ cut position current body) : b.IsSlice whole := by
  fun_induction cut position current body generalizing before with
  | case1 => cases hb
  | case2 _ c =>
    obtain rfl := List.mem_singleton.mp hb
    obtain ⟨first, rfl, hfirst⟩ := hc b rfl
    exact ⟨first, [], hwhole, hfirst⟩
  | case3 position i body hi ih =>
    refine ih (before ++ [i]) (by simp [hwhole]) (by simp [hposition]) ?_ hb
    rintro c ⟨⟩
    exact ⟨before, rfl, hposition⟩
  | case4 position i body hi ih =>
    exact ih (before ++ [i]) (by simp [hwhole]) (by simp [hposition]) (by simp) hb
  | case5 position c i body hx ih =>
    rcases List.mem_cons.mp hb with rfl | hb
    · obtain ⟨first, rfl, hfirst⟩ := hc c rfl
      exact ⟨first, body, by simp [hwhole, push], hfirst⟩
    · exact ih (before ++ [i]) (by simp [hwhole]) (by simp [hposition]) (by simp) hb
  | case6 position c i body hx ih =>
    refine ih (before ++ [i]) (by simp [hwhole]) (by simp [hposition]) ?_ hb
    rintro _ ⟨⟩
    obtain ⟨first, rfl, hfirst⟩ := hc c rfl
    exact ⟨first, by simp [push], hfirst⟩

theorem isSlice_of_mem_ofBody (hb : b ∈ ofBody body) : b.IsSlice body := by
  refine isSlice_of_mem_cut [] rfl rfl ?_ hb
  rintro c ⟨⟩
  exact ⟨[], rfl, rfl⟩

/-- The blocks that begin at `position` or later: all but the one that is open there. -/
def begun (position : Nat) (current : Option Block) (body : List Instruction) : List Block :=
  (cut position current body).drop current.toList.length

theorem begun_none_of_entry (hi : i.isEntryPoint) :
    begun position none (i :: body) = cut (position + 1) (some ⟨position, [i]⟩) body := by
  simp [begun, cut, hi]

theorem begun_none_of_not_entry (hi : ¬ i.isEntryPoint) :
    begun position none (i :: body) = begun (position + 1) none body := by
  simp [begun, cut, hi]

theorem begun_some_of_exit (hx : i.isExitPoint) :
    begun position (some c) (i :: body) = begun (position + 1) none body := by
  simp [begun, cut, hx]

theorem begun_some_of_not_exit (hx : ¬ i.isExitPoint) :
    begun position (some c) (i :: body) = begun (position + 1) (some (c.push i)) body := by
  simp [begun, cut, hx]

theorem exists_cut_eq_cons (position : Nat) (c : Block) (body : List Instruction) :
    ∃ added, cut position (some c) body =
      ⟨c.start, c.instructions ++ added⟩ :: begun position (some c) body := by
  induction body generalizing position c with
  | nil => exact ⟨[], by simp [cut, begun]⟩
  | cons i body ih =>
    by_cases hx : i.isExitPoint
    · exact ⟨[i], by simp [begun, cut, hx, push]⟩
    · obtain ⟨added, hcut⟩ := ih (position + 1) (c.push i)
      refine ⟨i :: added, ?_⟩
      rw [begun_some_of_not_exit hx, cut, if_neg hx, hcut]
      simp [push]

theorem le_start_of_mem_begun (hb : b ∈ begun position current body) : position ≤ b.start := by
  fun_induction cut position current body with
  | case1 => cases hb
  | case2 => cases hb
  | case3 position i body hi ih =>
    obtain ⟨added, hcut⟩ := exists_cut_eq_cons (position + 1) ⟨position, [i]⟩ body
    rw [begun_none_of_entry hi, hcut] at hb
    rcases List.mem_cons.mp hb with rfl | hb
    · exact Nat.le_refl _
    · exact Nat.le_of_succ_le (ih hb)
  | case4 position i body hi ih => exact Nat.le_of_succ_le (ih (begun_none_of_not_entry hi ▸ hb))
  | case5 position c i body hx ih => exact Nat.le_of_succ_le (ih (begun_some_of_exit hx ▸ hb))
  | case6 position c i body hx ih => exact Nat.le_of_succ_le (ih (begun_some_of_not_exit hx ▸ hb))

theorem pairwise_cut (hc : ∀ c, current = some c → c.stop = position) :
    (cut position current body).Pairwise fun b c => b.stop ≤ c.start := by
  fun_induction cut position current body with
  | case1 => exact .nil
  | case2 _ c => exact List.pairwise_singleton _ c
  | case3 position i body hi ih =>
    refine ih ?_
    rintro c ⟨⟩
    rfl
  | case4 position i body hi ih => exact ih (by simp)
  | case5 position c i body hx ih =>
    refine List.pairwise_cons.mpr ⟨?_, ih (by simp)⟩
    intro b (hb : b ∈ begun (position + 1) none body)
    rw [stop_push, hc c rfl]
    exact le_start_of_mem_begun hb
  | case6 position c i body hx ih =>
    refine ih ?_
    rintro _ ⟨⟩
    rw [stop_push, hc c rfl]

theorem not_isExitPoint_of_mem_cut
    (hc : ∀ c, current = some c → ∀ i ∈ c.instructions, ¬ i.isExitPoint)
    (hb : b ∈ cut position current body) : ∀ i ∈ b.instructions.dropLast, ¬ i.isExitPoint := by
  fun_induction cut position current body with
  | case1 => cases hb
  | case2 _ c =>
    obtain rfl := List.mem_singleton.mp hb
    exact fun i hi => hc b rfl i (List.dropLast_subset _ hi)
  | case3 position i body hi ih =>
    refine ih ?_ hb
    rintro c ⟨⟩
    simpa using Instruction.not_isExitPoint_of_isEntryPoint hi
  | case4 position i body hi ih => exact ih (by simp) hb
  | case5 position c i body hx ih =>
    rcases List.mem_cons.mp hb with rfl | hb
    · simpa [push] using hc c rfl
    · exact ih (by simp) hb
  | case6 position c i body hx ih =>
    refine ih ?_ hb
    rintro _ ⟨⟩
    simpa [push, or_imp, forall_and, hx] using hc c rfl

/-! ### Open blocks -/

def staysOpen (isOpen : Bool) (i : Instruction) : Bool :=
  (isOpen || i.isEntryPoint) && !i.isExitPoint

theorem staysOpen_true (i : Instruction) : staysOpen true i = !i.isExitPoint := by
  simp [staysOpen]

theorem staysOpen_false (i : Instruction) : staysOpen false i = i.isEntryPoint := by
  by_cases h : i.isEntryPoint
  · simp [staysOpen, h, Instruction.not_isExitPoint_of_isEntryPoint h]
  · simp [staysOpen, h]

/-- Something holds of each instruction, of its position, and of whether a block is open there. -/
def EachPoint (P : Nat → Instruction → Bool → Prop) : Nat → Bool → List Instruction → Prop
  | _, _, [] => True
  | position, isOpen, i :: rest =>
    P position i isOpen ∧ EachPoint P (position + 1) (staysOpen isOpen i) rest

section EachPoint

variable {P Q R : Nat → Instruction → Bool → Prop} {isOpen : Bool}

theorem EachPoint.mono (h : EachPoint P position isOpen body)
    (hPQ : ∀ k i o, position ≤ k → P k i o → Q k i o) : EachPoint Q position isOpen body := by
  induction body generalizing position isOpen with
  | nil => trivial
  | cons i body ih =>
    obtain ⟨hi, hrest⟩ := h
    refine ⟨hPQ _ _ _ (Nat.le_refl _) hi, ih hrest fun k i o hk => ?_⟩
    exact hPQ k i o (Nat.le_of_succ_le hk)

theorem EachPoint.and (hP : EachPoint P position isOpen body)
    (hQ : EachPoint Q position isOpen body) :
    EachPoint (fun k i o => P k i o ∧ Q k i o) position isOpen body := by
  induction body generalizing position isOpen with
  | nil => trivial
  | cons i body ih => exact ⟨⟨hP.1, hQ.1⟩, ih hP.2 hQ.2⟩

end EachPoint

theorem exists_holds_of_open {k : Nat} (hk : c.Holds k) :
    ∃ b ∈ cut position (some c) body, b.Holds k := by
  obtain ⟨added, hcut⟩ := exists_cut_eq_cons position c body
  rw [hcut]
  refine ⟨_, List.mem_cons_self, hk.1, Nat.lt_of_lt_of_le hk.2 ?_⟩
  simp [stop]

theorem holds_push (hc : c.stop = position) : (c.push i).Holds position := by
  rw [Holds, stop_push, start_push, hc]
  exact ⟨hc ▸ Nat.le_add_right .., Nat.lt_succ_self position⟩

theorem eachPoint_holds (hc : ∀ c, current = some c → c.stop = position) :
    EachPoint (fun k i isOpen => (∃ b ∈ cut position current body, b.Holds k) ↔
      isOpen ∨ i.isEntryPoint) position current.isSome body := by
  fun_induction cut position current body with
  | case1 => trivial
  | case2 => trivial
  | case3 position i body hi ih =>
    have hrest := ih (by rintro c ⟨⟩; rfl)
    refine ⟨iff_of_true (exists_holds_of_open ?_) (.inr hi), ?_⟩
    · simp [Holds, stop]
    · rwa [Option.isSome_none, staysOpen_false, hi]
  | case4 position i body hi ih =>
    have hrest := ih (by simp)
    refine ⟨iff_of_false ?_ (by simpa using hi), ?_⟩
    · rintro ⟨b, (hb : b ∈ begun (position + 1) none body), hk, -⟩
      exact absurd (le_start_of_mem_begun hb) (by omega)
    · rwa [Option.isSome_none, staysOpen_false, Bool.eq_false_iff.mpr hi]
  | case5 position c i body hx ih =>
    have hrest := ih (by simp)
    refine ⟨iff_of_true ⟨_, List.mem_cons_self, holds_push (hc c rfl)⟩ (.inl rfl), ?_⟩
    rw [Option.isSome_some, staysOpen_true, hx]
    refine hrest.mono fun k x o hk hiff => ?_
    have hnot : ¬ (c.push i).Holds k := by
      rw [Holds, stop_push, hc c rfl]
      omega
    rw [← hiff]
    simp [hnot]
  | case6 position c i body hx ih =>
    have hrest := ih (by simp [hc c rfl])
    refine ⟨iff_of_true (exists_holds_of_open (holds_push (hc c rfl))) (.inl rfl), ?_⟩
    rwa [Option.isSome_some, staysOpen_true, Bool.eq_false_iff.mpr hx]

theorem eachPoint_begins (position : Nat) (current : Option Block) (body : List Instruction) :
    EachPoint (fun k i isOpen => (∃ b ∈ begun position current body, b.Begins k) ↔
      ¬ isOpen ∧ i.isEntryPoint) position current.isSome body := by
  fun_induction cut position current body with
  | case1 => trivial
  | case2 => trivial
  | case3 position i body hi ih =>
    obtain ⟨added, hcut⟩ := exists_cut_eq_cons (position + 1) ⟨position, [i]⟩ body
    rw [begun_none_of_entry hi, hcut]
    refine ⟨iff_of_true ⟨_, List.mem_cons_self, rfl, by simp⟩ (by simpa using hi), ?_⟩
    rw [Option.isSome_none, staysOpen_false, hi]
    refine ih.mono fun k x o hk hiff => ?_
    have hnot : ¬ Begins ⟨position, i :: added⟩ k := by
      rintro ⟨rfl, -⟩
      exact absurd hk (Nat.not_succ_le_self _)
    rw [← hiff]
    simp [hnot]
  | case4 position i body hi ih =>
    rw [begun_none_of_not_entry hi]
    refine ⟨iff_of_false ?_ (by simpa using hi), ?_⟩
    · rintro ⟨b, hb, rfl, -⟩
      exact absurd (le_start_of_mem_begun hb) (Nat.not_succ_le_self _)
    · rwa [Option.isSome_none, staysOpen_false, Bool.eq_false_iff.mpr hi]
  | case5 position c i body hx ih =>
    rw [begun_some_of_exit hx]
    refine ⟨iff_of_false ?_ (by simp), ?_⟩
    · rintro ⟨b, hb, rfl, -⟩
      exact absurd (le_start_of_mem_begun hb) (Nat.not_succ_le_self _)
    · rwa [Option.isSome_some, staysOpen_true, hx]
  | case6 position c i body hx ih =>
    rw [begun_some_of_not_exit hx]
    refine ⟨iff_of_false ?_ (by simp), ?_⟩
    · rintro ⟨b, hb, rfl, -⟩
      exact absurd (le_start_of_mem_begun hb) (Nat.not_succ_le_self _)
    · rwa [Option.isSome_some, staysOpen_true, Bool.eq_false_iff.mpr hx]

/-! ### Faults -/

def pointFaults (isOpen : Bool) (i : Instruction) : List GraphFault :=
  if isOpen then if i.isEntryPoint then [.entryInOpenBlock i.span] else []
  else if i.isEntryPoint then [] else [.outsideBlock i.span]

theorem cutFaults_cons (isOpen : Bool) (i : Instruction) (body : List Instruction) :
    cutFaults isOpen (i :: body) = pointFaults isOpen i ++ cutFaults (staysOpen isOpen i) body := by
  cases isOpen with
  | true => simp [cutFaults, pointFaults, staysOpen_true]
  | false =>
    rw [cutFaults, pointFaults, staysOpen_false]
    by_cases hi : i.isEntryPoint <;> simp [hi]

/-- What is reported under a code can be read off each instruction alone. -/
theorem filter_cutFaults {isOpen : Bool} {code : Code} {report : Span → GraphFault}
    {select : Instruction × Nat → Bool}
    (h : EachPoint (fun k i isOpen =>
      ((pointFaults isOpen i).map (·.diagnostic)).filter (·.code = code) =
        if select (i, k) then [(report i.span).diagnostic] else []) position isOpen body) :
    ((cutFaults isOpen body).map (·.diagnostic)).filter (·.code = code) =
      ((body.zipIdx position).filter select).map fun p => (report p.1.span).diagnostic := by
  induction body generalizing isOpen position with
  | nil => rfl
  | cons i body ih =>
    obtain ⟨hi, hrest⟩ := h
    rw [cutFaults_cons, List.map_append, List.filter_append, hi, ih hrest, List.zipIdx_cons,
      List.filter_cons]
    split <;> simp

end Block

namespace ControlGraph

variable {g : ControlGraph} {r : Routine}

def Holds (g : ControlGraph) (k : Nat) : Prop := ∃ b ∈ g.blocks, b.Holds k

instance (g : ControlGraph) (k : Nat) : Decidable (g.Holds k) :=
  inferInstanceAs (Decidable (∃ b ∈ g.blocks, b.Holds k))

/-- The instruction at a position is the first one of a block other than the first block. -/
def Begins (g : ControlGraph) (k : Nat) : Prop := ∃ b ∈ g.blocks.tail, b.Begins k

instance (g : ControlGraph) (k : Nat) : Decidable (g.Begins k) :=
  inferInstanceAs (Decidable (∃ b ∈ g.blocks.tail, b.Begins k))

theorem eachPoint_graph (r : Routine) :
    Block.EachPoint (fun k i isOpen =>
      ((ofRoutine r).Holds k ↔ isOpen ∨ i.isEntryPoint) ∧
      ((ofRoutine r).Begins k ↔ ¬ isOpen ∧ i.isEntryPoint)) 0 true r.body := by
  refine (Block.eachPoint_holds ?_).and ?_
  · rintro c ⟨⟩
    rfl
  · have h := Block.eachPoint_begins 0 (some ⟨0, []⟩) r.body
    simpa [Begins, ofRoutine, Block.ofBody, Block.begun] using h

theorem lt_size_of_blockOf? {role : LabelRole} {label : Name} {j : Nat}
    (h : g.blockOf? role label = some j) : j < g.size := by
  obtain ⟨s, hs, -, -, rfl⟩ := exists_site_of_blockOf? h
  obtain ⟨b, hb, -⟩ := mem_labelSites_iff.mp hs
  exact (List.getElem?_eq_some_iff.mp hb).1

theorem lt_size_of_mem_successors {i j : Nat} (h : j ∈ g.successors i) : j < g.size := by
  obtain ⟨b, -, l, -, hj⟩ := mem_successors_iff.mp h
  exact lt_size_of_blockOf? hj

theorem nodup_predecessors (g : ControlGraph) (i : Nat) : (g.predecessors i).Nodup := by
  rw [predecessors_eq]
  exact nodup_firsts _

theorem nodup_successors (g : ControlGraph) (i : Nat) : (g.successors i).Nodup := by
  rw [successors]
  split
  · exact .nil
  · exact nodup_firsts _

theorem filter_graphQueue {code : Code} (hcode : code = .entryInOpenBlock ∨ code = .outsideBlock) :
    (r.graphQueue .unlimited).flushed.filter (·.code = code) =
      ((Block.cutFaults true r.body).map (·.diagnostic)).filter (·.code = code) := by
  have hnil : ∀ l : List GraphFault, (∀ f ∈ l, f.diagnostic.code ≠ code) →
      (l.map (·.diagnostic)).filter (·.code = code) = [] := by
    simp [List.filter_eq_nil_iff]
  have hrepeated : ∀ f ∈ (ofRoutine r).repeatedLabels, f.diagnostic.code ≠ code := by
    intro f hf
    obtain ⟨⟨first, role, label, block⟩, -, rfl⟩ := List.mem_map.mp hf
    rcases hcode with rfl | rfl <;> cases role <;> simp [GraphFault.diagnostic]
  have hunmatched : ∀ role other, ∀ f ∈ (ofRoutine r).unmatchedLabels role other,
      f.diagnostic.code ≠ code := by
    intro role other f hf
    obtain ⟨label, -, rfl⟩ := List.mem_map.mp hf
    rcases hcode with rfl | rfl <;> cases role <;> simp [GraphFault.diagnostic]
  rw [Routine.graphQueue, Queue.flushed_ofList_unlimited, faults]
  simp only [List.map_append, List.filter_append, hnil _ hrepeated, hnil _ (hunmatched _ _),
    List.append_nil]

end ControlGraph

namespace Routine

open ControlGraph

/-- The blocks of any body are slices of it in order. Each instruction in no block is reported as
outside, and each entry point in a block that it does not begin is reported as inside. -/
theorem blocks_account (r : Routine) :
    0 < (ofRoutine r).size ∧
    (ofRoutine r).blocks.map (·.instructions) = (ofRoutine r).ids.map (ofRoutine r).instructions ∧
    (∀ b ∈ (ofRoutine r).blocks, b.IsSlice r.body) ∧
    (ofRoutine r).blocks.Pairwise (fun b c => b.stop ≤ c.start) ∧
    ((r.graphQueue .unlimited).flushed.filter (·.code = .outsideBlock) =
      (r.body.zipIdx.filter fun p => ¬ (ofRoutine r).Holds p.2).map
        fun p => (GraphFault.outsideBlock p.1.span).diagnostic) ∧
    ((r.graphQueue .unlimited).flushed.filter (·.code = .entryInOpenBlock) =
      (r.body.zipIdx.filter fun p => p.1.isEntryPoint ∧ (ofRoutine r).Holds p.2 ∧
        ¬ (ofRoutine r).Begins p.2).map
        fun p => (GraphFault.entryInOpenBlock p.1.span).diagnostic) ∧
    (∀ b ∈ (ofRoutine r).blocks, ∀ i ∈ b.instructions.dropLast, ¬ i.isExitPoint) ∧
    (∀ i, (∀ j ∈ (ofRoutine r).predecessors i, j < (ofRoutine r).size) ∧
      (∀ j ∈ (ofRoutine r).successors i, j < (ofRoutine r).size) ∧
      ((ofRoutine r).predecessors i).Nodup ∧ ((ofRoutine r).successors i).Nodup) ∧
    ∀ direction label j, (ofRoutine r).landing? direction label = some j →
      j < (ofRoutine r).size := by
  have hstart : ∀ c, some (⟨0, []⟩ : Block) = some c → c.stop = 0 ∧ c.instructions = [] := by
    rintro c ⟨⟩
    exact ⟨rfl, rfl⟩
  refine ⟨size_pos r, runsOf_eq_map r, fun b hb => Block.isSlice_of_mem_ofBody hb,
    Block.pairwise_cut fun c hc => (hstart c hc).1, ?_, ?_,
    fun b hb => Block.not_isExitPoint_of_mem_cut (fun c hc => by simp [(hstart c hc).2]) hb,
    fun i => ⟨fun j hj => Nat.lt_of_succ_lt (lt_size_of_mem_predecessors hj).2,
      fun j hj => lt_size_of_mem_successors hj, nodup_predecessors _ i, nodup_successors _ i⟩,
    fun direction label j hj => lt_size_of_blockOf? hj⟩
  · rw [filter_graphQueue (.inr rfl)]
    refine Block.filter_cutFaults ((eachPoint_graph r).mono ?_)
    rintro k i isOpen - ⟨hholds, -⟩
    simp only [hholds, Block.pointFaults]
    cases isOpen <;> cases i.isEntryPoint <;> simp [GraphFault.diagnostic]
  · rw [filter_graphQueue (.inl rfl)]
    refine Block.filter_cutFaults ((eachPoint_graph r).mono ?_)
    rintro k i isOpen - ⟨hholds, hbegins⟩
    simp only [hholds, hbegins, Block.pointFaults]
    cases isOpen <;> cases i.isEntryPoint <;> simp [GraphFault.diagnostic]

end Routine

namespace Ragged

open Sample (span)

def jump (direction : Direction) (label : Name) (n : Nat) : Instruction :=
  .jump direction ⟨label, span n⟩ (span n)

/-- An entry point before the first exit point, an exit point between two blocks, and an entry point
in the open last block. -/
def routine : Routine where
  id := ⟨"ragged", span 0⟩
  inputs := []
  outputs := []
  body := [jump .backward "a" 1, jump .forward "b" 2, jump .forward "c" 3, jump .backward "b" 4,
    jump .backward "c" 5]
  span := span 0

theorem blocks_account_ragged :
    (ControlGraph.ofRoutine routine).blocks.map (fun b => (b.start, b.stop)) = [(0, 2), (3, 5)] ∧
    (∀ b ∈ (ControlGraph.ofRoutine routine).blocks, b.IsSlice routine.body) ∧
    ((routine.graphQueue .unlimited).flushed.filter (·.code = .outsideBlock) =
      [(GraphFault.outsideBlock ⟨3, 4⟩).diagnostic]) ∧
    ((routine.graphQueue .unlimited).flushed.filter (·.code = .entryInOpenBlock) =
      [(GraphFault.entryInOpenBlock ⟨1, 2⟩).diagnostic,
        (GraphFault.entryInOpenBlock ⟨5, 6⟩).diagnostic]) := by
  obtain ⟨-, -, hslices, -, houtside, hinside, -⟩ := Routine.blocks_account routine
  refine ⟨by decide +kernel, hslices, houtside.trans ?_, hinside.trans ?_⟩ <;> decide +kernel

end Ragged

end Reversible
