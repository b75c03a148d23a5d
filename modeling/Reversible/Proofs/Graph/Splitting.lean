import Reversible.Proofs.Graph.Grammar

/-! # Splitting a block

A block can be split where no control point stands: a jump to a new label ends the first half, and
the same label begins the second half. The graph of the split routine has no fault either. The
second half follows the first half alone, and all other edges are those of the original blocks.
-/

namespace Reversible

/-- The routine with an exit point to the label `x` and an entry point from the label `y` put in
before the instruction `i`. -/
def Routine.split (r : Routine) (i : Nat) (x y : Ident) (s t : Span) : Routine :=
  { r with body := r.body.take i ++ .jump .forward x s :: .jump .backward y t :: r.body.drop i }

/-- A block can be split before the instruction `i` with the labels `x` and `y`: they have the same
name, which no label in the body has, and the place lies inside a block. -/
structure Routine.Splits (r : Routine) (i : Nat) (x y : Ident) : Prop where
  name_eq : y.name = x.name
  fresh : ∀ instruction ∈ r.body, ∀ label ∈ instruction.labels, label.name ≠ x.name
  not_exit : ∀ instruction ∈ (r.body.take i).getLast?, ¬ instruction.isExitPoint
  not_entry : ∀ instruction ∈ (r.body.drop i).head?, ¬ instruction.isEntryPoint

namespace Block

variable {body u v : List Instruction} {pre post : List (List Instruction)} {x y : Instruction}
  {i : Nat}

theorem exists_mem_labels_of_mem_entryLabels {b : Block} {label : Ident}
    (h : label ∈ b.entryLabels) : ∃ j ∈ b.instructions, label ∈ j.labels := by
  rw [entryLabels] at h
  split at h
  · next j hj =>
    refine ⟨j, List.mem_of_head? hj, ?_⟩
    split at h
    · exact h
    · cases h
  · cases h

/-- The place before the instruction `i` of a body lies between `u` and `v` in the block that
follows the blocks `pre`. -/
structure Parts (body : List Instruction) (i : Nat) (pre post : List (List Instruction))
    (u v : List Instruction) : Prop where
  runsOf_eq : runsOf body = pre ++ (u ++ v) :: post
  take_eq : body.take i = pre.flatten ++ u

theorem exists_parts (hne : runsOf body ≠ []) (hflat : (runsOf body).flatten = body) (i : Nat) :
    ∃ pre post u v, Parts body i pre post u v := by
  have hparts : (runsOf body).flatten = body.take i ++ body.drop i := by
    rw [hflat, List.take_append_drop]
  rcases List.flatten_eq_append_iff.mp hparts with
    ⟨pre, post, hruns, htake, -⟩ | ⟨pre, u, j, v, post, hruns, htake, -⟩
  · -- between two blocks is before the first instruction of the second one
    cases post with
    | cons run post => exact ⟨pre, post, [], run, hruns, by simpa using htake⟩
    | nil =>
      rcases List.eq_nil_or_concat' pre with rfl | ⟨pre, run, rfl⟩
      · exact (hne hruns).elim
      · exact ⟨pre, [], run, [], by simpa using hruns, by simpa using htake⟩
  · exact ⟨pre, post, u, j :: v, hruns, htake⟩

theorem Parts.drop_eq (h : Parts body i pre post u v) (hflat : (runsOf body).flatten = body) :
    body.drop i = v ++ post.flatten := by
  have hbody : body.take i ++ body.drop i = body.take i ++ (v ++ post.flatten) := by
    rw [List.take_append_drop, h.take_eq]
    conv_lhs => rw [← hflat, h.runsOf_eq]
    simp
  exact List.append_cancel_left hbody

theorem Shaped.straight_halves (h : Shaped (pre ++ (u ++ v) :: post))
    (hx : ∀ i ∈ (pre.flatten ++ u).getLast?, ¬ i.isExitPoint)
    (hy : ∀ i ∈ (v ++ post.flatten).head?, ¬ i.isEntryPoint) :
    (∀ i ∈ u, ¬ i.isExitPoint) ∧ ∀ i ∈ v, ¬ i.isEntryPoint := by
  have hs := h.straight (u ++ v) (by simp)
  constructor
  · rcases List.eq_nil_or_concat' u with rfl | ⟨init, i, rfl⟩
    · simp
    · intro j hj
      rcases List.mem_append.mp hj with hj | hj
      · exact hs.2 j (by cases v <;> simp [hj])
      · obtain rfl := List.mem_singleton.mp hj
        exact hx j (by simp)
  · cases v with
    | nil => simp
    | cons i v =>
      intro j hj
      rcases List.mem_cons.mp hj with rfl | hj
      · exact hy j (by simp)
      · exact hs.1 j (by cases u <;> simp [hj])

theorem closes_append_iff (hu : ∀ i ∈ u, ¬ i.isExitPoint) : Closes (u ++ v) ↔ Closes v := by
  rcases List.eq_nil_or_concat' v with rfl | ⟨v, i, rfl⟩
  · have hno : ¬ Closes u := fun ⟨i, hi, hx⟩ => hu i (List.mem_of_getLast? hi) hx
    simpa [Closes] using hno
  · rw [← List.append_assoc, closes_concat, closes_concat]

theorem opens_append_iff (hv : ∀ i ∈ v, ¬ i.isEntryPoint) : Opens (u ++ v) ↔ Opens u := by
  cases u with
  | nil =>
    have hno : ¬ Opens v := fun ⟨i, hi, hx⟩ => hv i (List.mem_of_head? hi) hx
    simpa [Opens] using hno
  | cons i u => simp

section Halves

variable (h : Shaped (pre ++ (u ++ v) :: post)) (hu : ∀ i ∈ u, ¬ i.isExitPoint)
  (hv : ∀ i ∈ v, ¬ i.isEntryPoint) (hx : x.isExitPoint) (hy : y.isEntryPoint)
include h hu hv hx hy

theorem Shaped.halve : Shaped (pre ++ (u ++ [x]) :: (y :: v) :: post) := by
  have hs := h.straight (u ++ v) (by simp)
  have hxe : ∀ i ∈ [x], ¬ i.isEntryPoint := by
    simpa using fun he => Instruction.not_isExitPoint_of_isEntryPoint he hx
  have hyx : ∀ i ∈ [y], ¬ i.isExitPoint := by
    simpa using Instruction.not_isExitPoint_of_isEntryPoint hy
  constructor
  case ne_nil => simp
  case closes =>
    -- an exit point of the block stands in the second half
    have hcl := h.closes
    rw [List.dropLast_append_cons, List.forall_mem_append, forall_mem_dropLast_cons_iff,
      closes_append_iff hu] at hcl
    have hclose : Closes (y :: v) ↔ Closes v := closes_append_iff hyx
    rw [List.dropLast_append_cons, List.forall_mem_append, forall_mem_dropLast_cons_iff,
      forall_mem_dropLast_cons_iff, hclose]
    exact ⟨hcl.1, fun _ => closes_concat.mpr hx, hcl.2⟩
  case opens =>
    -- an entry point of the block stands in the first half
    have hop := h.opens
    cases pre with
    | nil => simpa [hy] using hop
    | cons run pre =>
      simp only [List.cons_append, List.tail_cons, List.forall_mem_append, List.forall_mem_cons,
        opens_append_iff hv, opens_append_iff hxe, opens_cons] at hop ⊢
      exact ⟨hop.1, hop.2.1, hy, hop.2.2⟩
  case not_opens =>
    have hno := h.not_opens
    cases pre with
    | nil => simpa [opens_append_iff hv, opens_append_iff hxe] using hno
    | cons run pre => simpa using hno
  case straight =>
    have hst := h.straight
    simp only [List.forall_mem_append, List.forall_mem_cons] at hst ⊢
    have hopen : IsOpen u := ⟨fun i hi => hs.1 i (by cases u <;> simp_all), hu⟩
    refine ⟨hst.1, hopen.straight_concat (by simpa using hxe), ⟨hv, ?_⟩, hst.2.2⟩
    refine forall_mem_dropLast_cons_iff.mpr ⟨fun _ => by simpa using hyx, fun i hi => ?_⟩
    exact hs.2 i (by cases v <;> simp_all)

end Halves

end Block

namespace ControlGraph

variable {u v : List Instruction} {pre post : List (List Instruction)} {x y : Ident} {s t : Span}
  {role : LabelRole} {name : Name}

theorem namesIn_append (u v : List Instruction) (role : LabelRole) :
    namesIn (u ++ v) role = namesIn u role ++ namesIn v role := by
  cases role <;> simp [namesIn]

theorem namesIn_exit_eq_nil (hu : ∀ i ∈ u, ¬ i.isExitPoint) : namesIn u .exit = [] := by
  rw [namesIn, List.filter_eq_nil_iff.mpr hu]
  rfl

theorem namesIn_entry_eq_nil (hv : ∀ i ∈ v, ¬ i.isEntryPoint) : namesIn v .entry = [] := by
  rw [namesIn, List.filter_eq_nil_iff.mpr hv]
  rfl

theorem exists_label_of_mem_linkingNames {runs : List (List Instruction)}
    (h : name ∈ linkingNames runs role) :
    ∃ i ∈ runs.flatten, ∃ label ∈ i.labels, label.name = name := by
  have hsub : ∀ rs ⊆ runs, ∀ run ∈ rs, ∀ i ∈ run, i ∈ runs.flatten := fun rs hrs run hrun i hi =>
    List.mem_flatten.mpr ⟨run, hrs hrun, hi⟩
  cases role with
  | entry =>
    simp only [linkingNames, namesIn, List.mem_flatMap, List.mem_map, List.mem_filter] at h
    obtain ⟨run, hrun, label, ⟨i, ⟨hi, -⟩, hlabel⟩, rfl⟩ := h
    exact ⟨i, hsub _ (List.tail_sublist _).subset run hrun i hi, label, hlabel, rfl⟩
  | exit =>
    simp only [linkingNames, namesIn, List.mem_flatMap, List.mem_map, List.mem_filter] at h
    obtain ⟨run, hrun, label, ⟨i, ⟨hi, -⟩, hlabel⟩, rfl⟩ := h
    exact ⟨i, hsub _ (List.dropLast_subset _) run hrun i hi, label, hlabel, rfl⟩

section Halves

variable (hu : ∀ i ∈ u, ¬ i.isExitPoint) (hv : ∀ i ∈ v, ¬ i.isEntryPoint)
include hu hv

/-- The label of the split stands in the exit point of the first half and in the entry point of the
second half. Apart from it, the first half has the names of the entry point and the second half
those of the exit point. -/
theorem namesIn_halves (x y : Ident) (s t : Span) :
    namesIn (u ++ [.jump .forward x s]) .entry = namesIn (u ++ v) .entry ∧
      namesIn (u ++ [.jump .forward x s]) .exit = [x.name] ∧
      namesIn (.jump .backward y t :: v) .entry = [y.name] ∧
      namesIn (.jump .backward y t :: v) .exit = namesIn (u ++ v) .exit := by
  have hcons : ∀ role, namesIn (.jump .backward y t :: v) role =
    namesIn [.jump .backward y t] role ++ namesIn v role := namesIn_append [.jump .backward y t] v
  simp only [namesIn_append, hcons, namesIn_exit_eq_nil hu, namesIn_entry_eq_nil hv]
  exact ⟨rfl, rfl, rfl, rfl⟩

theorem linkingNames_halve (hname : y.name = x.name) (role : LabelRole) :
    (linkingNames (pre ++ (u ++ [.jump .forward x s]) :: (.jump .backward y t :: v) :: post)
      role).Perm (x.name :: linkingNames (pre ++ (u ++ v) :: post) role) := by
  obtain ⟨hentry, hexit, hentry', hexit'⟩ := namesIn_halves hu hv x y s t
  rw [hname] at hentry'
  cases role with
  | entry =>
    cases pre with
    | nil => simp [linkingNames, hentry']
    | cons run pre =>
      simp only [linkingNames, List.cons_append, List.tail_cons, List.flatMap_append,
        List.flatMap_cons, hentry, hentry', ← List.append_assoc]
      exact List.perm_middle
  | exit =>
    have hrest : ((.jump .backward y t :: v) :: post).dropLast.flatMap (namesIn · .exit) =
        ((u ++ v) :: post).dropLast.flatMap (namesIn · .exit) := by
      cases post <;> simp [hexit']
    rw [linkingNames, linkingNames, List.dropLast_append_cons, List.dropLast_append_cons,
      List.flatMap_append, List.flatMap_append, List.dropLast_cons_cons, List.flatMap_cons, hexit,
      hrest]
    exact List.perm_middle

end Halves

theorem Grammatical.halve (h : Grammatical (pre ++ (u ++ v) :: post))
    (hu : ∀ i ∈ u, ¬ i.isExitPoint) (hv : ∀ i ∈ v, ¬ i.isEntryPoint) (hname : y.name = x.name)
    (hfresh : ∀ role, x.name ∉ linkingNames (pre ++ (u ++ v) :: post) role) :
    Grammatical (pre ++ (u ++ [.jump .forward x s]) :: (.jump .backward y t :: v) :: post) where
  toShaped := h.toShaped.halve hu hv rfl rfl
  paired := by
    have hnames : ∀ role, (linkingNames
        (pre ++ (u ++ [.jump .forward x s]) :: (.jump .backward y t :: v) :: post) role).Perm
        (x.name :: linkingNames (pre ++ (u ++ v) :: post) role) := linkingNames_halve hu hv hname
    intro name hname' role
    rw [(hnames role).count_eq]
    -- the new name stands once in either role, and other names stand as often as before
    by_cases hx : x.name = name
    · rw [← hx, List.count_cons_self, List.count_eq_zero.mpr (hfresh role)]
    · rw [List.count_cons_of_ne hx]
      obtain ⟨other, hother⟩ := hname'
      refine h.paired name ⟨other, ?_⟩ role
      exact (List.mem_cons.mp ((hnames other).subset hother)).resolve_left (Ne.symm hx)

/-- The first of the blocks that the block `d` has become when the block `b` is split. -/
def firstPart (b d : Nat) : Nat := if d ≤ b then d else d + 1

/-- The last of the blocks that the block `d` has become when the block `b` is split. -/
def lastPart (b d : Nat) : Nat := if d < b then d else d + 1

/-- The block that a block comes from, where the block `b` was split. -/
def whole (b e : Nat) : Nat := if e ≤ b then e else e - 1

section Parts

variable {b d : Nat}

@[simp] theorem firstPart_self (b : Nat) : firstPart b b = b := if_pos (Nat.le_refl b)

@[simp] theorem lastPart_self (b : Nat) : lastPart b b = b + 1 := if_neg (Nat.lt_irrefl b)

theorem lastPart_of_ne (h : d ≠ b) : lastPart b d = firstPart b d := by
  unfold lastPart firstPart
  grind

theorem firstPart_ne (b d : Nat) : firstPart b d ≠ b + 1 := by
  rw [firstPart]
  split <;> omega

theorem lastPart_ne (b d : Nat) : lastPart b d ≠ b := by
  rw [lastPart]
  split <;> omega

@[simp] theorem whole_firstPart (b d : Nat) : whole b (firstPart b d) = d := by
  unfold whole firstPart
  grind

@[simp] theorem whole_lastPart (b d : Nat) : whole b (lastPart b d) = d := by
  unfold whole lastPart
  grind

theorem lastPart_injective (b : Nat) : Function.Injective (lastPart b) :=
  Function.LeftInverse.injective (whole_lastPart b)

theorem eq_or_firstPart_whole (b e : Nat) : e = b + 1 ∨ firstPart b (whole b e) = e := by
  unfold firstPart whole
  grind

theorem eq_or_lastPart_whole (b e : Nat) : e = b ∨ lastPart b (whole b e) = e := by
  unfold lastPart whole
  grind

theorem firstPart_eq_zero_iff : firstPart b d = 0 ↔ d = 0 := by
  rw [firstPart]
  split <;> omega

theorem firstPart_lt_iff {n : Nat} (hb : b < n) : firstPart b d < n + 1 ↔ d < n := by
  rw [firstPart]
  split <;> omega

theorem lastPart_lt_iff {n : Nat} (hb : b < n) : lastPart b d < n ↔ d + 1 < n := by
  rw [lastPart]
  split <;> omega

end Parts

section Split

variable {r : Routine} {i d : Nat} (hg : faults r = []) (h : r.Splits i x y)
  (hp : Block.Parts r.body i pre post u v)
include hg h hp

omit hg h in
theorem instructions_whole : (ofRoutine r).instructions pre.length = u ++ v := by
  rw [instructions_eq, hp.runsOf_eq]
  simp

omit hg h in
theorem length_lt_size : pre.length < (ofRoutine r).size := by
  rw [size_eq, hp.runsOf_eq, List.length_append, List.length_cons]
  omega

omit hg h in
theorem length_mem_ids : pre.length ∈ (ofRoutine r).ids := List.mem_range.mpr (length_lt_size hp)

theorem straight_parts : (∀ j ∈ u, ¬ j.isExitPoint) ∧ ∀ j ∈ v, ¬ j.isEntryPoint := by
  obtain ⟨hgram, hflat⟩ := faults_eq_nil_iff.mp hg
  have hshaped := hgram.toShaped
  rw [hp.runsOf_eq] at hshaped
  refine hshaped.straight_halves ?_ ?_
  · rw [← hp.take_eq]
    exact h.not_exit
  · rw [← hp.drop_eq hflat]
    exact h.not_entry

/-- The split routine is cut into the blocks of the original one, except that one block is cut into
its halves. -/
theorem runsOf_split (s t : Span) :
    Block.runsOf (r.split i x y s t).body =
        pre ++ (u ++ [.jump .forward x s]) :: (.jump .backward y t :: v) :: post ∧
      faults (r.split i x y s t) = [] := by
  obtain ⟨hgram, hflat⟩ := faults_eq_nil_iff.mp hg
  obtain ⟨hu, hv⟩ := straight_parts hg h hp
  have hfresh : ∀ role, x.name ∉ linkingNames (pre ++ (u ++ v) :: post) role := by
    intro role hname
    rw [← hp.runsOf_eq] at hname
    obtain ⟨j, hj, label, hlabel, heq⟩ := exists_label_of_mem_linkingNames hname
    rw [hflat] at hj
    exact h.fresh j hj label hlabel heq
  rw [hp.runsOf_eq] at hgram
  refine faults_of_grammatical (hgram.halve hu hv h.name_eq hfresh) ?_
  rw [Routine.split, hp.take_eq, hp.drop_eq hflat]
  simp

theorem size_split (s t : Span) :
    (ofRoutine (r.split i x y s t)).size = (ofRoutine r).size + 1 := by
  rw [size_eq, size_eq, (runsOf_split hg h hp s t).1, hp.runsOf_eq]
  simp only [List.length_append, List.length_cons]
  omega

theorem last_split (s t : Span) :
    (ofRoutine (r.split i x y s t)).last = lastPart pre.length (ofRoutine r).last := by
  have hlt := length_lt_size hp
  rw [last, last, size_split hg h hp, lastPart, if_neg (by omega)]
  omega

theorem firstPart_mem_ids_iff (s t : Span) :
    firstPart pre.length d ∈ (ofRoutine (r.split i x y s t)).ids ↔ d ∈ (ofRoutine r).ids := by
  rw [ids, ids, List.mem_range, List.mem_range, size_split hg h hp,
    firstPart_lt_iff (length_lt_size hp)]

theorem lastPart_mem_ids_iff (s t : Span) :
    lastPart pre.length d ∈ (ofRoutine (r.split i x y s t)).ids ↔ d ∈ (ofRoutine r).ids := by
  rw [ids, ids, List.mem_range, List.mem_range, size_split hg h hp,
    lastPart_lt_iff (Nat.lt_succ_of_lt (length_lt_size hp)), Nat.add_lt_add_iff_right]

/-- The blocks in their order: those before the split block and those after it have become one block
each, and the split block two. -/
theorem ids_split (s t : Span) :
    ∃ low high, (ofRoutine r).ids = low ++ pre.length :: high ∧
      (∀ d ∈ low ++ high, d ≠ pre.length) ∧
      (ofRoutine (r.split i x y s t)).ids = low.map (firstPart pre.length) ++
        pre.length :: (pre.length + 1) :: high.map (firstPart pre.length) := by
  obtain ⟨k, hk⟩ : ∃ k, (ofRoutine r).size = pre.length + (1 + k) := by
    have := length_lt_size hp
    exact ⟨(ofRoutine r).size - pre.length - 1, by omega⟩
  refine ⟨List.range pre.length, (List.range k).map (pre.length + 1 + ·), ?_, ?_, ?_⟩
  · rw [ids, hk, ← Nat.add_assoc, List.range_add, List.range_succ, List.append_assoc]
    rfl
  · intro d hd
    simp only [List.mem_append, List.mem_range, List.mem_map] at hd
    omega
  · have hlow : (List.range pre.length).map (firstPart pre.length) = List.range pre.length := by
      have hself : ∀ d ∈ List.range pre.length, firstPart pre.length d = d := fun d hd =>
        if_pos (Nat.le_of_lt (List.mem_range.mp hd))
      rw [List.map_congr_left hself, List.map_id']
    have hhigh : ((List.range k).map (pre.length + 1 + ·)).map (firstPart pre.length) =
        (List.range k).map (pre.length + 2 + ·) := by
      rw [List.map_map]
      refine List.map_congr_left fun d _ => ?_
      rw [Function.comp_apply, firstPart, if_neg (by omega)]
      omega
    have hsize : (ofRoutine (r.split i x y s t)).size = pre.length + 1 + 1 + k := by
      rw [size_split hg h hp, hk]
      omega
    rw [hlow, hhigh, ids, hsize, List.range_add, List.range_succ, List.range_succ,
      List.append_assoc, List.append_assoc]
    rfl

theorem instructions_firstHalf (s t : Span) :
    (ofRoutine (r.split i x y s t)).instructions pre.length = u ++ [.jump .forward x s] := by
  rw [instructions_eq, (runsOf_split hg h hp s t).1]
  simp

theorem instructions_secondHalf (s t : Span) :
    (ofRoutine (r.split i x y s t)).instructions (pre.length + 1) = .jump .backward y t :: v := by
  rw [instructions_eq, (runsOf_split hg h hp s t).1]
  simp

theorem instructions_split_of_ne (s t : Span) (hd : d ≠ pre.length) :
    (ofRoutine (r.split i x y s t)).instructions (firstPart pre.length d) =
      (ofRoutine r).instructions d := by
  rw [instructions_eq, instructions_eq, (runsOf_split hg h hp s t).1, hp.runsOf_eq, firstPart]
  split
  · have hlt : d < pre.length := by omega
    rw [List.getElem?_append_left hlt, List.getElem?_append_left hlt]
  · obtain ⟨k, rfl⟩ : ∃ k, d = pre.length + (k + 1) := ⟨d - pre.length - 1, by omega⟩
    rw [Nat.add_assoc, List.getElem?_append_right (Nat.le_add_right _ _),
      List.getElem?_append_right (Nat.le_add_right _ _)]
    simp

theorem namesIn_lastPart (s t : Span) (d : Nat) :
    namesIn ((ofRoutine (r.split i x y s t)).instructions (lastPart pre.length d)) .exit =
      namesIn ((ofRoutine r).instructions d) .exit := by
  by_cases hd : d = pre.length
  · obtain ⟨hu, hv⟩ := straight_parts hg h hp
    rw [hd, lastPart_self, instructions_secondHalf hg h hp, instructions_whole hp]
    exact (namesIn_halves hu hv x y s t).2.2.2
  · rw [lastPart_of_ne hd, instructions_split_of_ne hg h hp s t hd]

theorem namesIn_firstHalf (s t : Span) :
    namesIn ((ofRoutine (r.split i x y s t)).instructions pre.length) .exit = [x.name] := by
  obtain ⟨hu, hv⟩ := straight_parts hg h hp
  rw [instructions_firstHalf hg h hp]
  exact (namesIn_halves hu hv x y s t).2.1

theorem entryLabels_firstPart (s t : Span) (d : Nat) :
    Block.entryLabels ⟨0, (ofRoutine (r.split i x y s t)).instructions (firstPart pre.length d)⟩ =
      Block.entryLabels ⟨0, (ofRoutine r).instructions d⟩ := by
  by_cases hd : d = pre.length
  · obtain ⟨-, hv⟩ := straight_parts hg h hp
    rw [hd, firstPart_self, instructions_firstHalf hg h hp, instructions_whole hp]
    cases u with
    | cons j u => rfl
    | nil =>
      cases v with
      | nil => rfl
      | cons j v => exact (if_neg (hv j List.mem_cons_self)).symm
  · rw [instructions_split_of_ne hg h hp s t hd]

theorem blockOf?_split (s t : Span) (hname : name ≠ x.name) :
    (ofRoutine (r.split i x y s t)).blockOf? .exit name =
      ((ofRoutine r).blockOf? .exit name).map (lastPart pre.length) := by
  have hg' := (runsOf_split hg h hp s t).2
  ext e
  rw [Option.map_eq_some_iff, blockOf?_eq_some_iff_instructions hg']
  simp only [blockOf?_eq_some_iff_instructions hg, Links, size_split hg h hp s t,
    Nat.add_lt_add_iff_right]
  constructor
  · rintro ⟨he, hmem⟩
    rcases eq_or_lastPart_whole pre.length e with rfl | heq
    · rw [namesIn_firstHalf hg h hp] at hmem
      exact (hname (List.mem_singleton.mp hmem)).elim
    · rw [← heq] at he hmem
      rw [namesIn_lastPart hg h hp] at hmem
      exact ⟨_, ⟨(lastPart_lt_iff (length_lt_size hp)).mp he, hmem⟩, heq⟩
  · rintro ⟨d, ⟨hd, hmem⟩, rfl⟩
    refine ⟨(lastPart_lt_iff (length_lt_size hp)).mpr hd, ?_⟩
    rwa [namesIn_lastPart hg h hp]

theorem predecessors_firstPart (s t : Span) (d : Nat) :
    (ofRoutine (r.split i x y s t)).predecessors (firstPart pre.length d) =
      ((ofRoutine r).predecessors d).map (lastPart pre.length) := by
  refine predecessors_eq_map (lastPart_injective _) (entryLabels_firstPart hg h hp s t d) ?_
  intro label hlabel
  obtain ⟨j, hj, hmem⟩ := Block.exists_mem_labels_of_mem_entryLabels hlabel
  exact blockOf?_split hg h hp s t (h.fresh j (mem_body_of_mem_instructions hj) label hmem)

theorem predecessors_secondHalf (s t : Span) :
    (ofRoutine (r.split i x y s t)).predecessors (pre.length + 1) = [pre.length] := by
  have hblock : (ofRoutine (r.split i x y s t)).blockOf? .exit y.name = some pre.length := by
    rw [blockOf?_eq_some_iff_instructions (runsOf_split hg h hp s t).2, namesIn_firstHalf hg h hp,
      h.name_eq]
    refine ⟨?_, List.mem_singleton.mpr rfl⟩
    rw [Links, size_split hg h hp]
    exact Nat.add_lt_add_right (length_lt_size hp) 1
  rw [predecessors_eq, instructions_secondHalf hg h hp]
  simp [linked, Block.entryLabels, Instruction.isEntryPoint, Instruction.controlDirection,
    Instruction.labels, hblock, firsts, firstsAfter]

end Split

end ControlGraph

end Reversible
