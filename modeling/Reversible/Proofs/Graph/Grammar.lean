import Reversible.Proofs.Graph.Links
import Reversible.Proofs.Order.NameMap
import Reversible.Proofs.Report.Queue
import Reversible.Proofs.Syntax.Sample
import Reversible.Verify.Routine

/-! # The grammar of bodies

The graph of a body has no fault exactly if the body is a sequence of blocks of a certain form.
Each block but the last ends with an exit point, each block but the first begins with an entry
point, and control points stand nowhere else. Each label that links stands once in an exit point
and once in an entry point. The blocks are then the ones that the body is cut into, and a label
leads to the blocks that it stands in.
-/

namespace Reversible

theorem Instruction.not_isExitPoint_of_isEntryPoint {i : Instruction} (h : i.isEntryPoint) :
    ¬ i.isExitPoint := by
  cases i <;> simp_all [isEntryPoint, isExitPoint, controlDirection]

namespace Block

variable {run body rest : List Instruction} {runs : List (List Instruction)} {i : Instruction}
  {c : Block}

def Opens (run : List Instruction) : Prop := ∃ i ∈ run.head?, i.isEntryPoint

def Closes (run : List Instruction) : Prop := ∃ i ∈ run.getLast?, i.isExitPoint

/-- An entry point stands nowhere but at the front, and an exit point nowhere but at the end. -/
def Straight (run : List Instruction) : Prop :=
  (∀ i ∈ run.tail, ¬ i.isEntryPoint) ∧ ∀ i ∈ run.dropLast, ¬ i.isExitPoint

/-- Blocks in the form that a body has to have. -/
structure Shaped (runs : List (List Instruction)) : Prop where
  ne_nil : runs ≠ []
  closes : ∀ run ∈ runs.dropLast, Closes run
  opens : ∀ run ∈ runs.tail, Opens run
  not_opens : ∀ run ∈ runs.head?, ¬ Opens run
  straight : ∀ run ∈ runs, Straight run

@[simp] theorem opens_cons : Opens (i :: run) ↔ i.isEntryPoint := by
  simp [Opens]

@[simp] theorem closes_concat : Closes (run ++ [i]) ↔ i.isExitPoint := by
  simp [Closes]

def runsOf (body : List Instruction) : List (List Instruction) :=
  (ofBody body).map (·.instructions)

section Cutting

/-- An open block that holds some instructions so far can go on. -/
def IsOpen (run : List Instruction) : Prop :=
  (∀ i ∈ run.tail, ¬ i.isEntryPoint) ∧ ∀ i ∈ run, ¬ i.isExitPoint

theorem IsOpen.straight (h : IsOpen run) : Straight run :=
  ⟨h.1, fun i hi => h.2 i (List.dropLast_subset run hi)⟩

theorem IsOpen.straight_concat (h : IsOpen run) (hi : ¬ i.isEntryPoint) :
    Straight (run ++ [i]) := by
  constructor
  · cases run with
    | nil => simp
    | cons j run =>
      intro k hk
      rcases List.mem_append.mp hk with hk | hk
      · exact h.1 k hk
      · rwa [List.mem_singleton.mp hk]
  · simpa using h.2

theorem IsOpen.concat (h : IsOpen run) (hi : ¬ i.isEntryPoint) (hx : ¬ i.isExitPoint) :
    IsOpen (run ++ [i]) := by
  refine ⟨(h.straight_concat hi).1, fun k hk => ?_⟩
  rcases List.mem_append.mp hk with hk | hk
  · exact h.2 k hk
  · rwa [List.mem_singleton.mp hk]

theorem forall_mem_dropLast_cons_iff {α : Type} {P : α → Prop} {a : α} {l : List α} :
    (∀ b ∈ (a :: l).dropLast, P b) ↔ (l ≠ [] → P a) ∧ ∀ b ∈ l.dropLast, P b := by
  cases l <;> simp

/-- Cutting a body without faults into blocks loses no instruction and gives blocks of the right
form. The first of them goes on with the open block, if there is one. -/
theorem shaped_cut (position : Nat) (current : Option Block)
    (hb : cutFaults current.isSome body = []) (hc : ∀ c ∈ current, IsOpen c.instructions) :
    ((cut position current body).map (·.instructions)).flatten =
        (current.elim [] (·.instructions)) ++ body ∧
      (∀ run ∈ ((cut position current body).map (·.instructions)).dropLast, Closes run) ∧
      (∀ run ∈ (cut position current body).map (·.instructions), Straight run) ∧
      ∀ run ∈ ((cut position current body).map (·.instructions)).drop current.toList.length,
        Opens run := by
  fun_induction cut position current body with
  | case1 => simp
  | case2 _ c => simpa using (hc c rfl).straight
  | case3 position i body hi ih =>
    have hb' : cutFaults true body = [] := by simpa [cutFaults, hi] using hb
    have hopen : IsOpen [i] := by
      simpa [IsOpen] using Instruction.not_isExitPoint_of_isEntryPoint hi
    obtain ⟨hf, hcl, hst, hop⟩ := ih hb' (by simpa using hopen)
    refine ⟨by simpa using hf, hcl, hst, ?_⟩
    -- the entry point makes the block that it begins one that opens
    obtain ⟨b, bs, hcut, added, hadd, -⟩ := cut_open (position + 1) ⟨position, [i]⟩ body
    rw [hcut] at hop ⊢
    simpa [hadd, hi] using hop
  | case4 position i body hi ih => simp [cutFaults, hi] at hb
  | case5 position c i body hx ih =>
    have hi : ¬ i.isEntryPoint := fun hi => Instruction.not_isExitPoint_of_isEntryPoint hi hx
    have hb' : cutFaults false body = [] := by simpa [cutFaults, hi, hx] using hb
    obtain ⟨hf, hcl, hst, hop⟩ := ih hb' (by simp)
    refine ⟨by simpa [push] using hf, ?_, ?_, by simpa using hop⟩
    · exact forall_mem_dropLast_cons_iff.mpr ⟨fun _ => closes_concat.mpr hx, hcl⟩
    · exact List.forall_mem_cons.mpr ⟨(hc c rfl).straight_concat hi, hst⟩
  | case6 position c i body hx ih =>
    have hi : ¬ i.isEntryPoint := by
      intro hi
      simp [cutFaults, hi] at hb
    have hb' : cutFaults true body = [] := by simpa [cutFaults, hi, hx] using hb
    obtain ⟨hf, hcl, hst, hop⟩ := ih hb' (by simpa [push] using (hc c rfl).concat hi hx)
    exact ⟨by simpa [push] using hf, hcl, hst, by simpa using hop⟩

theorem shaped_runsOf (h : cutFaults true body = []) :
    Shaped (runsOf body) ∧ (runsOf body).flatten = body := by
  have hnil : IsOpen [] := by simp [IsOpen]
  obtain ⟨hf, hcl, hst, hop⟩ :=
    shaped_cut 0 (some ⟨0, []⟩) h (by simpa using hnil)
  refine ⟨⟨?_, hcl, by simpa [runsOf, ofBody] using hop, ?_, hst⟩, hf⟩
  · simpa [runsOf] using ofBody_ne_nil body
  · obtain ⟨b, bs, hcut, added, hadd, hp⟩ := cut_open 0 ⟨0, []⟩ body
    have hhead : (runsOf body).head? = some added := by simp [runsOf, ofBody, hcut, hadd]
    rintro run hrun ⟨i, hi, he⟩
    obtain rfl := Option.some.inj (hhead.symm.trans hrun)
    obtain ⟨tail, rfl⟩ := hp
    cases added with
    | nil => cases hi
    | cons j added =>
      obtain rfl := Option.some.inj hi
      simp [cutFaults, he] at h

theorem cut_append (h : ∀ i ∈ run, ¬ i.isExitPoint) (position : Nat) (c : Block)
    (rest : List Instruction) :
    cut position (some c) (run ++ rest) =
      cut (position + run.length) (some ⟨c.start, c.instructions ++ run⟩) rest := by
  induction run generalizing position c with
  | nil => simp
  | cons i run ih =>
    obtain ⟨hi, hrun⟩ := List.forall_mem_cons.mp h
    rw [List.cons_append, cut, if_neg hi, ih hrun]
    simp [push, Nat.add_assoc, Nat.add_comm 1]

theorem cutFaults_append (hi : ∀ i ∈ run, ¬ i.isEntryPoint) (hx : ∀ i ∈ run, ¬ i.isExitPoint)
    (rest : List Instruction) : cutFaults true (run ++ rest) = cutFaults true rest := by
  induction run with
  | nil => rfl
  | cons i run ih =>
    rw [List.forall_mem_cons] at hi hx
    rw [List.cons_append, cutFaults, if_neg hi.1, Bool.eq_false_iff.mpr hx.1, List.nil_append]
    exact ih hi.2 hx.2

/-- What is left of an open block, followed by further blocks, is cut off at its exit point or, if
nothing follows, where the body ends. -/
theorem cut_flatten_open (hi : ∀ i ∈ run, ¬ i.isEntryPoint)
    (hx : ∀ i ∈ run.dropLast, ¬ i.isExitPoint) (hcl : runs ≠ [] → Closes run)
    (hruns : ∀ position, (cut position none runs.flatten).map (·.instructions) = runs ∧
      cutFaults false runs.flatten = []) (position : Nat) (c : Block) :
    (cut position (some c) (run ++ runs.flatten)).map (·.instructions) =
        (c.instructions ++ run) :: runs ∧
      cutFaults true (run ++ runs.flatten) = [] := by
  by_cases hclose : Closes run
  · obtain ⟨x, hlast, hxx⟩ := hclose
    obtain ⟨init, rfl⟩ : ∃ init, run = init ++ [x] := List.getLast?_eq_some_iff.mp hlast
    rw [List.dropLast_concat] at hx
    have hinit : ∀ i ∈ init, ¬ i.isEntryPoint := fun i h => hi i (List.mem_append_left _ h)
    have hxi : ¬ x.isEntryPoint := hi x (by simp)
    rw [List.append_assoc, cut_append hx, cutFaults_append hinit hx]
    simp [cut, cutFaults, hxx, hxi, hruns, (hruns 0).2, push]
  · obtain rfl : runs = [] := not_not.mp fun h => hclose (hcl h)
    have hnone : ∀ i ∈ run, ¬ i.isExitPoint := by
      rcases List.eq_nil_or_concat' run with rfl | ⟨init, x, rfl⟩
      · simp
      · rw [List.dropLast_concat] at hx
        rw [closes_concat] at hclose
        simpa [or_imp, forall_and, hclose] using hx
    rw [cut_append hnone, cutFaults_append hi hnone]
    simp [cut, cutFaults]

theorem cut_flatten (hop : ∀ run ∈ runs, Opens run) (hcl : ∀ run ∈ runs.dropLast, Closes run)
    (hst : ∀ run ∈ runs, Straight run) (position : Nat) :
    (cut position none runs.flatten).map (·.instructions) = runs ∧
      cutFaults false runs.flatten = [] := by
  induction runs generalizing position with
  | nil => simp [cut, cutFaults]
  | cons run runs ih =>
    obtain ⟨⟨i, hhead, hi⟩, hops⟩ := List.forall_mem_cons.mp hop
    obtain ⟨hs, hsts⟩ := List.forall_mem_cons.mp hst
    obtain ⟨run, rfl⟩ := List.head?_eq_some_iff.mp hhead
    have hcls : ∀ r ∈ runs.dropLast, Closes r := (forall_mem_dropLast_cons_iff.mp hcl).2
    have hx := Instruction.not_isExitPoint_of_isEntryPoint hi
    have hclose : runs ≠ [] → Closes run := by
      intro hne
      obtain ⟨x, hlast, hxx⟩ := hcl (i :: run) (by simp [List.dropLast_cons_of_ne_nil hne])
      cases run with
      | nil => simp_all
      | cons j run => exact ⟨x, by simpa using hlast, hxx⟩
    have hinner : ∀ j ∈ run.dropLast, ¬ j.isExitPoint := (forall_mem_dropLast_cons_iff.mp hs.2).2
    have hopen := cut_flatten_open hs.1 hinner hclose (ih hops hcls hsts) (position + 1)
      ⟨position, [i]⟩
    simpa [cut, cutFaults, hi] using hopen

/-- Blocks of the right form are the ones that the body made of them is cut into. -/
theorem runsOf_flatten (h : Shaped runs) :
    runsOf runs.flatten = runs ∧ cutFaults true runs.flatten = [] := by
  obtain ⟨run, runs, rfl⟩ := List.exists_cons_of_ne_nil h.ne_nil
  have hs := h.straight run List.mem_cons_self
  have hcl : ∀ r ∈ runs.dropLast, Closes r := (forall_mem_dropLast_cons_iff.mp h.closes).2
  have hi : ∀ i ∈ run, ¬ i.isEntryPoint := by
    have hno := h.not_opens run rfl
    cases run with
    | nil => simp
    | cons i run => exact List.forall_mem_cons.mpr ⟨mt opens_cons.mpr hno, hs.1⟩
  have hclose : runs ≠ [] → Closes run := fun hne =>
    h.closes run (by simp [List.dropLast_cons_of_ne_nil hne])
  have hrest := cut_flatten h.opens hcl fun r hr => h.straight r (List.mem_cons_of_mem _ hr)
  exact cut_flatten_open hi hs.2 hclose hrest 0 ⟨0, []⟩

end Cutting

end Block

namespace ControlGraph

variable {g : ControlGraph} {r : Routine} {run : List Instruction} {runs : List (List Instruction)}
  {role : LabelRole} {name : Name} {i : Nat}

/-- The names of the labels in the entry points or in the exit points of a block. -/
def namesIn (run : List Instruction) : LabelRole → List Name
  | .entry => ((run.filter (·.isEntryPoint)).flatMap Instruction.labels).map (·.name)
  | .exit => ((run.filter (·.isExitPoint)).flatMap Instruction.labels).map (·.name)

/-- The names of the labels that link in a role: those in the entry points of all blocks but the
first, or in the exit points of all blocks but the last. -/
def linkingNames (runs : List (List Instruction)) : LabelRole → List Name
  | .entry => runs.tail.flatMap (namesIn · .entry)
  | .exit => runs.dropLast.flatMap (namesIn · .exit)

/-- Blocks in the form that a body has to have, in which each label that links stands once in
either role. -/
structure Grammatical (runs : List (List Instruction)) : Prop extends Block.Shaped runs where
  paired : ∀ name, (∃ role, name ∈ linkingNames runs role) →
    ∀ role, (linkingNames runs role).count name = 1

theorem namesIn_of_straight {b : Block} (h : Block.Straight b.instructions) (role : LabelRole) :
    namesIn b.instructions role = (labelsIn b role).map (·.name) := by
  cases role with
  | entry =>
    rw [labelsIn, Block.entryLabels, namesIn]
    cases hb : b.instructions with
    | nil => rfl
    | cons i run =>
      rw [hb] at h
      have hnil : run.filter (·.isEntryPoint) = [] := by simpa using h.1
      by_cases hi : i.isEntryPoint <;> simp [hi, hnil]
  | exit =>
    rw [labelsIn, Block.exitLabels, namesIn]
    rcases List.eq_nil_or_concat' b.instructions with hb | ⟨init, x, hb⟩
    · simp [hb]
    · rw [hb] at h ⊢
      have hnil : init.filter (·.isExitPoint) = [] := by simpa [Block.Straight] using h.2
      by_cases hx : x.isExitPoint <;> simp [hx, hnil]

section Numbering

variable {α β : Type} (l : List α) (f : α → List β)

theorem flatMap_zipIdx_of_pos :
    (l.zipIdx.flatMap fun (a, i) => if 0 < i then f a else []) = l.tail.flatMap f := by
  cases l with
  | nil => rfl
  | cons a l =>
    have hl : ∀ p ∈ l.zipIdx 1, (if 0 < p.2 then f p.1 else []) = f p.1 := by
      intro p hp
      have := List.le_snd_of_mem_zipIdx hp
      rw [if_pos (by omega)]
    rw [List.zipIdx_cons, List.flatMap_cons, List.flatMap_congr hl]
    conv_rhs => rw [List.tail_cons, ← List.zipIdx_map_fst 1 l, List.flatMap_map]
    simp

theorem flatMap_zipIdx_of_lt {n : Nat} (hn : n = l.length) :
    (l.zipIdx.flatMap fun (a, i) => if i + 1 < n then f a else []) = l.dropLast.flatMap f := by
  subst hn
  rcases List.eq_nil_or_concat' l with rfl | ⟨init, a, rfl⟩
  · rfl
  · have hl : ∀ p ∈ init.zipIdx,
        (if p.2 + 1 < (init ++ [a]).length then f p.1 else []) = f p.1 := by
      intro p hp
      have := List.snd_lt_of_mem_zipIdx hp
      rw [if_pos (by simpa using this)]
    rw [List.zipIdx_append, List.flatMap_append, List.flatMap_congr hl]
    conv_rhs => rw [List.dropLast_concat, ← List.zipIdx_map_fst 0 init, List.flatMap_map]
    simp

end Numbering

theorem map_name_filter_labelSites (h : ∀ b ∈ g.blocks, Block.Straight b.instructions)
    (role : LabelRole) :
    (g.labelSites.filter (·.role = role)).map (·.label.name) =
      linkingNames (g.blocks.map (·.instructions)) role := by
  rw [labelSites, List.filter_flatMap, List.map_flatMap]
  cases role with
  | entry =>
    have htail : ∀ b ∈ g.blocks.tail, namesIn b.instructions .entry = b.entryLabels.map (·.name) :=
      fun b hb => namesIn_of_straight (h b (List.mem_of_mem_tail hb)) .entry
    rw [linkingNames, ← List.map_tail, List.flatMap_map, List.flatMap_congr htail,
      ← flatMap_zipIdx_of_pos]
    apply List.flatMap_congr
    rintro ⟨b, i⟩ -
    dsimp only
    split_ifs <;> simp [List.filter_map, Function.comp_def]
  | exit =>
    have hinit : ∀ b ∈ g.blocks.dropLast,
        namesIn b.instructions .exit = b.exitLabels.map (·.name) :=
      fun b hb => namesIn_of_straight (h b (List.dropLast_subset _ hb)) .exit
    rw [linkingNames, ← List.map_dropLast, List.flatMap_map, List.flatMap_congr hinit,
      ← flatMap_zipIdx_of_lt _ _ (rfl : g.size = g.blocks.length)]
    apply List.flatMap_congr
    rintro ⟨b, i⟩ -
    dsimp only
    split_ifs <;> simp [List.filter_map, Function.comp_def]

theorem count_sites (sites : List LabelSite) (role : LabelRole) (name : Name) :
    (sites.map fun s => (s.role, s.label.name)).count (role, name) =
      ((sites.filter (·.role = role)).map (·.label.name)).count name := by
  rw [List.count_eq_countP, List.count_eq_countP, List.countP_map, List.countP_map,
    List.countP_filter]
  refine List.countP_congr fun s _ => ?_
  simp [and_comm]

theorem repeatedLabels_eq_nil_iff : g.repeatedLabels = [] ↔
    ∀ role name, ((g.labelSites.filter (·.role = role)).map (·.label.name)).count name ≤ 1 := by
  rw [repeatedLabels, List.map_eq_nil_iff, repeats_eq_nil_iff, List.nodup_iff_count_le_one]
  simp only [Prod.forall, count_sites]

theorem blockOf?_eq_none_iff : g.blockOf? role name = none ↔
    name ∉ (g.labelSites.filter (·.role = role)).map (·.label.name) := by
  simp [blockOf?]

theorem unmatchedLabels_eq_nil_iff {other : LabelRole} : g.unmatchedLabels role other = [] ↔
    (g.labelSites.filter (·.role = role)).map (·.label.name) ⊆
      (g.labelSites.filter (·.role = other)).map (·.label.name) := by
  have hkeys : ∀ name, name ∈ (g.labelsOf role).keys ↔
      name ∈ (g.labelSites.filter (·.role = role)).map (·.label.name) := by
    intro name
    rw [labelsOf, NameMap.mem_keys_foldl_insertNew, List.mem_map]
    exact or_iff_right List.not_mem_nil
  have hall : g.unmatchedLabels role other = [] ↔
      ∀ name ∈ (g.labelsOf role).keys, g.blockOf? other name ≠ none := by
    simp [unmatchedLabels, NameMap.keys, List.filter_eq_nil_iff]
  rw [hall]
  simp only [hkeys, ne_eq, blockOf?_eq_none_iff, not_not]
  rfl

theorem paired_iff {names : LabelRole → List Name} :
    (∀ name, (∃ role, name ∈ names role) → ∀ role, (names role).count name = 1) ↔
      (∀ role name, (names role).count name ≤ 1) ∧ names .entry ⊆ names .exit ∧
        names .exit ⊆ names .entry := by
  constructor
  · intro h
    have hmem : ∀ role other, names role ⊆ names other := fun role other name hn =>
      List.count_pos_iff.mp (by rw [h name ⟨role, hn⟩]; exact Nat.one_pos)
    refine ⟨fun role name => ?_, hmem .entry .exit, hmem .exit .entry⟩
    by_cases hn : name ∈ names role
    · exact Nat.le_of_eq (h name ⟨role, hn⟩ role)
    · rw [List.count_eq_zero.mpr hn]
      exact Nat.zero_le 1
  · rintro ⟨hle, hentry, hexit⟩ name ⟨role, hn⟩ other
    have hother : name ∈ names other := by
      match role, other with
      | .entry, .entry | .exit, .exit => exact hn
      | .entry, .exit => exact hentry hn
      | .exit, .entry => exact hexit hn
    exact Nat.le_antisymm (hle other name) (List.count_pos_iff.mpr hother)

theorem straight_blocks (h : Block.Shaped (Block.runsOf r.body)) :
    ∀ b ∈ (ofRoutine r).blocks, Block.Straight b.instructions := fun _ hb =>
  h.straight _ (List.mem_map_of_mem hb)

theorem names_labelSites (h : Block.Shaped (Block.runsOf r.body)) (role : LabelRole) :
    ((ofRoutine r).labelSites.filter (·.role = role)).map (·.label.name) =
      linkingNames (Block.runsOf r.body) role :=
  map_name_filter_labelSites (straight_blocks h) role

/-- A graph has no fault if and only if the body consists of the blocks it is cut into, and these
are in the right form. -/
theorem faults_eq_nil_iff : faults r = [] ↔
    Grammatical (Block.runsOf r.body) ∧ (Block.runsOf r.body).flatten = r.body := by
  have hlinks (hs : Block.Shaped (Block.runsOf r.body)) :
      (∀ name, (∃ role, name ∈ linkingNames (Block.runsOf r.body) role) →
        ∀ role, (linkingNames (Block.runsOf r.body) role).count name = 1) ↔
      (ofRoutine r).repeatedLabels = [] ∧ (ofRoutine r).unmatchedLabels .entry .exit = [] ∧
        (ofRoutine r).unmatchedLabels .exit .entry = [] := by
    rw [repeatedLabels_eq_nil_iff, unmatchedLabels_eq_nil_iff, unmatchedLabels_eq_nil_iff]
    simp only [names_labelSites hs]
    exact paired_iff
  simp only [faults, List.append_eq_nil_iff, and_assoc]
  constructor
  · rintro ⟨hcut, h⟩
    obtain ⟨hs, hflat⟩ := Block.shaped_runsOf hcut
    exact ⟨⟨hs, (hlinks hs).mpr h⟩, hflat⟩
  · rintro ⟨⟨hs, h⟩, hflat⟩
    have hcut := (Block.runsOf_flatten hs).2
    rw [hflat] at hcut
    exact ⟨hcut, (hlinks hs).mp h⟩

theorem blockOf?_eq_some_iff (h : faults r = []) : (ofRoutine r).blockOf? role name = some i ↔
    (ofRoutine r).Links i role ∧ ∃ run ∈ (Block.runsOf r.body)[i]?, name ∈ namesIn run role := by
  have hst := straight_blocks (faults_eq_nil_iff.mp h).1.toShaped
  have hrun : (Block.runsOf r.body)[i]? = ((ofRoutine r).blocks[i]?).map (·.instructions) :=
    List.getElem?_map
  constructor
  · intro hi
    obtain ⟨s, hs, rfl, rfl, rfl⟩ := exists_site_of_blockOf? hi
    obtain ⟨b, hb, hlabel, hlink⟩ := mem_labelSites_iff.mp hs
    refine ⟨hlink, b.instructions, by simp [hrun, hb], ?_⟩
    rw [namesIn_of_straight (hst b (List.mem_of_getElem? hb))]
    exact List.mem_map_of_mem hlabel
  · rintro ⟨hlink, run, hget, hname⟩
    rw [hrun] at hget
    obtain ⟨b, hb, rfl⟩ := Option.map_eq_some_iff.mp hget
    rw [namesIn_of_straight (hst b (List.mem_of_getElem? hb))] at hname
    obtain ⟨label, hlabel, rfl⟩ := List.mem_map.mp hname
    have hsite : (⟨role, label, i⟩ : LabelSite) ∈ (ofRoutine r).labelSites :=
      mem_labelSites_iff.mpr ⟨b, hb, hlabel, hlink⟩
    exact blockOf?_eq_of_mem (repeatedLabels_of_faults h) hsite

theorem instructions_eq (r : Routine) (i : Nat) :
    (ofRoutine r).instructions i = (Block.runsOf r.body)[i]?.getD [] := by
  have hget : (Block.runsOf r.body)[i]? = (ofRoutine r).blocks[i]?.map (·.instructions) :=
    List.getElem?_map
  rw [instructions, hget]
  cases (ofRoutine r).blocks[i]? <;> rfl

theorem blockOf?_eq_some_iff_instructions (h : faults r = []) :
    (ofRoutine r).blockOf? role name = some i ↔
      (ofRoutine r).Links i role ∧ name ∈ namesIn ((ofRoutine r).instructions i) role := by
  rw [blockOf?_eq_some_iff h, instructions_eq]
  cases (Block.runsOf r.body)[i]? with
  | none => cases role <;> simp [namesIn]
  | some run => simp

theorem size_eq (r : Routine) : (ofRoutine r).size = (Block.runsOf r.body).length :=
  (List.length_map _).symm

theorem runsOf_eq_map (r : Routine) :
    Block.runsOf r.body = (ofRoutine r).ids.map (ofRoutine r).instructions := by
  refine List.ext_getElem (by simp [ids, size_eq]) fun i h₁ h₂ => ?_
  simp [ids, instructions_eq, List.getElem?_eq_getElem h₁]

theorem faults_of_grammatical (hg : Grammatical runs) (hflat : runs.flatten = r.body) :
    Block.runsOf r.body = runs ∧ faults r = [] := by
  obtain ⟨hruns, -⟩ := Block.runsOf_flatten hg.toShaped
  rw [hflat] at hruns
  refine ⟨hruns, faults_eq_nil_iff.mpr ?_⟩
  rw [hruns]
  exact ⟨hg, hflat⟩

theorem blockOf?_eq_none_iff_of_faults (h : faults r = []) :
    (ofRoutine r).blockOf? role name = none ↔
      ∀ other, name ∉ linkingNames (Block.runsOf r.body) other := by
  obtain ⟨hg, -⟩ := faults_eq_nil_iff.mp h
  rw [blockOf?_eq_none_iff, names_labelSites hg.toShaped]
  refine ⟨fun hn other hother => hn (List.count_pos_iff.mp ?_), fun hn => hn role⟩
  rw [hg.paired name ⟨other, hother⟩ role]
  exact Nat.one_pos

theorem exists_mem_predecessors (h : faults r = []) (hi : i ∈ (ofRoutine r).ids) (hpos : 0 < i) :
    ∃ j, j ∈ (ofRoutine r).predecessors i := by
  obtain ⟨hg, -⟩ := faults_eq_nil_iff.mp h
  obtain ⟨b, hb⟩ : ∃ b, (ofRoutine r).blocks[i]? = some b :=
    ⟨_, List.getElem?_eq_getElem (List.mem_range.mp hi)⟩
  have htail : b.instructions ∈ (Block.runsOf r.body).tail := by
    refine List.mem_of_getElem? (i := i - 1) ?_
    rw [List.getElem?_tail, Nat.sub_add_cancel hpos]
    exact List.getElem?_map.trans (congrArg _ hb)
  obtain ⟨x, hx, hentry⟩ := hg.opens _ htail
  obtain ⟨label, hlabel⟩ : ∃ label, label ∈ x.labels := by
    cases x <;>
      simp_all [Instruction.isEntryPoint, Instruction.controlDirection, Instruction.labels]
  have hname : label.name ∈ linkingNames (Block.runsOf r.body) .entry := by
    have hx' := List.mem_filter.mpr ⟨List.mem_of_mem_head? hx, hentry⟩
    exact List.mem_flatMap.mpr
      ⟨_, htail, List.mem_map_of_mem (List.mem_flatMap.mpr ⟨x, hx', hlabel⟩)⟩
  have hsome : (ofRoutine r).blockOf? .exit label.name ≠ none := fun hnone =>
    (blockOf?_eq_none_iff_of_faults h).mp hnone .entry hname
  obtain ⟨j, hj⟩ := Option.ne_none_iff_exists'.mp hsome
  refine ⟨j, mem_predecessors_iff.mpr ⟨b, hb, label, ?_, hj⟩⟩
  rw [Block.entryLabels, Option.mem_def.mp hx]
  simpa [hentry] using hlabel

end ControlGraph

namespace Routine

variable {r : Routine}

theorem graphQueue_flushed_eq_nil_iff (config : QueueConfig) :
    (r.graphQueue config).flushed = [] ↔ ControlGraph.faults r = [] := by
  rw [graphQueue, Queue.flushed_ofList_eq_nil_iff, List.map_eq_nil_iff]

open ControlGraph in
/-- Nothing is reported about a graph if and only if the body is made of blocks in the right form.
These are the blocks of the graph. A label that links leads forward to the block with that entry
and backward to the block with that exit, and any other label leads nowhere. -/
theorem graphQueue_silent_iff (r : Routine) (config : QueueConfig) :
    ((r.graphQueue config).flushed = [] ↔
      ∃ runs, Grammatical runs ∧ runs.flatten = r.body) ∧
    ∀ runs, Grammatical runs → runs.flatten = r.body →
      (ofRoutine r).blocks.map (·.instructions) = runs ∧
      (∀ name i, (ofRoutine r).landing? .forward name = some i ↔
        0 < i ∧ ∃ run ∈ runs[i]?, name ∈ namesIn run .entry) ∧
      (∀ name i, (ofRoutine r).landing? .backward name = some i ↔
        i + 1 < runs.length ∧ ∃ run ∈ runs[i]?, name ∈ namesIn run .exit) ∧
      ∀ name direction, (ofRoutine r).landing? direction name = none ↔
        ∀ role, name ∉ linkingNames runs role := by
  rw [graphQueue_flushed_eq_nil_iff]
  refine ⟨⟨fun h => ⟨_, faults_eq_nil_iff.mp h⟩, ?_⟩, ?_⟩
  · rintro ⟨runs, hg, hflat⟩
    exact (faults_of_grammatical hg hflat).2
  · intro runs hg hflat
    obtain ⟨rfl, h⟩ := faults_of_grammatical hg hflat
    refine ⟨rfl, fun name i => blockOf?_eq_some_iff h, fun name i => ?_,
      fun name direction => blockOf?_eq_none_iff_of_faults h⟩
    rw [← size_eq]
    exact blockOf?_eq_some_iff h

end Routine

namespace Spin

open Sample (span condition)

/-- A block that jumps to itself, with a block before it and one after it. The last block has an
exit point that leads nowhere. -/
def routine : Routine where
  id := ⟨"spin", span 0⟩
  inputs := []
  outputs := []
  body := [
    .jump .forward ⟨"enter", span 1⟩ (span 1),
    .branch .backward ⟨"enter", span 2⟩ ⟨"again", span 2⟩ (condition 2) (span 2),
    .branch .forward ⟨"again", span 3⟩ ⟨"leave", span 3⟩ (condition 3) (span 3),
    .jump .backward ⟨"leave", span 4⟩ (span 4),
    .jump .forward ⟨"away", span 5⟩ (span 5)]
  span := span 0

/-- The label of the jump to the same block leads there in both directions. The label of the last
exit point leads nowhere. -/
theorem graphQueue_silent_spin : (routine.graphQueue .standard).flushed = [] ∧
    (ControlGraph.ofRoutine routine).landing? .forward "again" = some 1 ∧
    (ControlGraph.ofRoutine routine).landing? .backward "again" = some 1 ∧
    (ControlGraph.ofRoutine routine).landing? .forward "away" = none := by
  have h : ControlGraph.faults routine = [] := by decide +kernel
  obtain ⟨hg, hflat⟩ := ControlGraph.faults_eq_nil_iff.mp h
  obtain ⟨hiff, hall⟩ := Routine.graphQueue_silent_iff routine .standard
  obtain ⟨-, hforward, hbackward, hnone⟩ := hall _ hg hflat
  refine ⟨hiff.mpr ⟨_, hg, hflat⟩, (hforward _ _).mpr ⟨by decide, _, rfl, by decide +kernel⟩,
    (hbackward _ _).mpr ⟨by decide +kernel, _, rfl, by decide +kernel⟩, (hnone _ _).mpr ?_⟩
  intro role
  cases role <;> decide +kernel

end Spin

end Reversible
