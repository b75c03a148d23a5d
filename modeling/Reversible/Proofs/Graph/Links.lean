import Mathlib.Data.List.Nodup
import Reversible.Graph.Faults

/-! # Links of a graph without faults

Each label of a graph without faults links one block to one block, and no block is linked to the
first one. So a block from which control passes to another knows that block as a successor.
-/

namespace Reversible

section Repetition

variable {α κ : Type} [DecidableEq κ] {key : α → κ}

theorem repeatsAfter_eq_nil_iff {before l : List α} :
    repeatsAfter key before l = [] ↔
      (l.map key).Nodup ∧ ∀ a ∈ l, ∀ b ∈ before, key b ≠ key a := by
  induction l generalizing before with
  | nil => simp [repeatsAfter]
  | cons a rest ih =>
    rw [repeatsAfter]
    split
    · next first hf =>
      have hm := List.mem_of_find?_eq_some hf
      have hk : key first = key a := by simpa using List.find?_some hf
      simp only [List.cons_ne_nil, List.mem_cons, false_iff, not_and]
      exact fun _ h => h a (.inl rfl) first hm hk
    · next hf =>
      have hb : ∀ b ∈ before, key b ≠ key a := by simpa using hf
      rw [ih]
      simp only [List.map_cons, List.nodup_cons, List.mem_map, List.mem_append, List.mem_cons,
        List.not_mem_nil, or_false]
      constructor
      · rintro ⟨hn, h⟩
        refine ⟨⟨fun ⟨c, hc, hk⟩ => h c hc a (.inr rfl) hk.symm, hn⟩, ?_⟩
        rintro c (rfl | hc) b hbm
        · exact hb b hbm
        · exact h c hc b (.inl hbm)
      · rintro ⟨⟨ha, hn⟩, h⟩
        refine ⟨hn, ?_⟩
        rintro c hc b (hbm | rfl) hk
        · exact h c (.inr hc) b hbm hk
        · exact ha ⟨c, hc, hk.symm⟩

theorem repeats_eq_nil_iff {l : List α} : repeats key l = [] ↔ (l.map key).Nodup := by
  rw [repeats, repeatsAfter_eq_nil_iff]
  simp

variable {β : Type} {key : β → κ} {f : α → β}

theorem repeatsAfter_map (before l : List α) :
    repeatsAfter key (before.map f) (l.map f) =
      (repeatsAfter (fun a => key (f a)) before l).map fun (a, b) => (f a, f b) := by
  induction l generalizing before with
  | nil => rfl
  | cons a l ih =>
    rw [List.map_cons, repeatsAfter, repeatsAfter, List.find?_map]
    cases h : before.find? fun b => key (f b) = key (f a) with
    | none =>
      have hb := ih (before ++ [a])
      rw [List.map_append] at hb
      simpa [Function.comp_def, h] using hb
    | some first => simpa [Function.comp_def, h] using ih before

theorem repeats_map (l : List α) :
    repeats key (l.map f) = (repeats (fun a => key (f a)) l).map fun (a, b) => (f a, f b) :=
  repeatsAfter_map [] l

theorem firstsAfter_map (before l : List α) :
    firstsAfter key (before.map f) (l.map f) =
      (firstsAfter (fun a => key (f a)) before l).map f := by
  induction l generalizing before with
  | nil => rfl
  | cons a l ih =>
    have hb := ih (before ++ [a])
    rw [List.map_append] at hb
    rw [List.map_cons, firstsAfter, firstsAfter, List.any_map, apply_ite (List.map f), ih]
    simp only [List.map_cons, ← hb]
    rfl

theorem firsts_map (l : List α) :
    firsts key (l.map f) = (firsts (fun a => key (f a)) l).map f :=
  firstsAfter_map [] l

theorem firsts_map_of_injective [DecidableEq α] [DecidableEq β] (hf : Function.Injective f)
    (l : List α) : firsts id (l.map f) = (firsts id l).map f := by
  have hkey : ∀ before, firstsAfter f before l = firstsAfter id before l := by
    induction l with
    | nil => exact fun _ => rfl
    | cons a l ih =>
      intro before
      simp only [firstsAfter, hf.eq_iff, ih, id_eq]
  rw [firsts_map]
  exact congrArg (List.map f) (hkey [])

end Repetition

namespace Block

variable {position : Nat} {current b : Block} {body : List Instruction}

theorem cut_open (position : Nat) (current : Block) (body : List Instruction) :
    ∃ b rest, cut position (some current) body = b :: rest ∧
      ∃ added, b.instructions = current.instructions ++ added ∧ added <+: body := by
  induction body generalizing position current with
  | nil => exact ⟨current, [], rfl, [], by simp⟩
  | cons i body ih =>
    rw [cut]
    split
    · exact ⟨current.push i, _, rfl, [i], rfl, by simp⟩
    · obtain ⟨b, rest, hcut, added, hadd, hp⟩ := ih (position + 1) (current.push i)
      refine ⟨b, rest, hcut, i :: added, ?_, List.prefix_cons_inj i |>.mpr hp⟩
      rw [hadd, push, List.append_assoc, List.singleton_append]

theorem ofBody_ne_nil (body : List Instruction) : ofBody body ≠ [] := by
  obtain ⟨b, rest, h, -⟩ := cut_open 0 ⟨0, []⟩ body
  rw [ofBody, h]
  exact List.cons_ne_nil b rest

theorem entryLabels_of_head (h : (ofBody body).head? = some b)
    (hc : cutFaults true body = []) : b.entryLabels = [] := by
  obtain ⟨b', rest, hcut, added, hadd, hp⟩ := cut_open 0 ⟨0, []⟩ body
  rw [ofBody, hcut, List.head?_cons] at h
  obtain rfl := Option.some.inj h
  rw [entryLabels, hadd, List.nil_append]
  cases added with
  | nil => rfl
  | cons i added =>
    obtain ⟨tail, rfl⟩ := hp
    rw [List.cons_append, cutFaults, List.append_eq_nil_iff] at hc
    have hi : i.isEntryPoint = false := by simpa using hc.1
    simp [hi]

theorem mem_of_mem_cut {current : Option Block} {i : Instruction}
    (hb : b ∈ cut position current body) (hi : i ∈ b.instructions) :
    (∃ c, current = some c ∧ i ∈ c.instructions) ∨ i ∈ body := by
  fun_induction cut position current body with
  | case1 => simp at hb
  | case2 _ c => exact .inl ⟨c, rfl, by simpa [List.mem_singleton.mp hb] using hi⟩
  | case3 _ j rest _ ih => grind
  | case4 _ j rest _ ih => grind
  | case5 _ c j rest _ ih => grind [push]
  | case6 _ c j rest _ ih => grind [push]

theorem mem_body_of_mem_ofBody {i : Instruction} (hb : b ∈ ofBody body)
    (hi : i ∈ b.instructions) : i ∈ body := by
  rcases mem_of_mem_cut hb hi with ⟨c, hc, h⟩ | h
  · obtain rfl := Option.some.inj hc
    cases h
  · exact h

end Block

namespace ControlGraph

variable {g : ControlGraph} {r : Routine} {s : LabelSite} {role : LabelRole} {i j : Nat}

def labelsIn (b : Block) : LabelRole → List Ident
  | .entry => b.entryLabels
  | .exit => b.exitLabels

/-- A block does not link through the labels at the outer ends of the routine. -/
def Links (g : ControlGraph) (i : Nat) : LabelRole → Prop
  | .entry => 0 < i
  | .exit => i + 1 < g.size

theorem mem_labelSites_iff : s ∈ g.labelSites ↔
    ∃ b, g.blocks[s.block]? = some b ∧ s.label ∈ labelsIn b s.role ∧ g.Links s.block s.role := by
  obtain ⟨role, label, block⟩ := s
  simp only [labelSites, List.mem_flatMap, Prod.exists, List.mem_zipIdx_iff_getElem?,
    List.mem_append]
  constructor
  · rintro ⟨b, i, hb, hs | hs⟩
    · split at hs
      · next hi =>
        obtain ⟨l, hl, he⟩ := List.mem_map.mp hs
        cases he
        exact ⟨b, hb, hl, hi⟩
      · simp at hs
    · split at hs
      · next hi =>
        obtain ⟨l, hl, he⟩ := List.mem_map.mp hs
        cases he
        exact ⟨b, hb, hl, hi⟩
      · simp at hs
  · rintro ⟨b, hb, hl, hi⟩
    refine ⟨b, block, hb, ?_⟩
    cases role with
    | entry =>
      refine .inl ?_
      rw [if_pos (show 0 < block from hi)]
      exact List.mem_map.mpr ⟨label, hl, rfl⟩
    | exit =>
      refine .inr ?_
      rw [if_pos (show block + 1 < g.size from hi)]
      exact List.mem_map.mpr ⟨label, hl, rfl⟩

theorem exists_site_of_blockOf? {label : Name} (h : g.blockOf? role label = some i) :
    ∃ s ∈ g.labelSites, s.role = role ∧ s.label.name = label ∧ s.block = i := by
  obtain ⟨s, hs, rfl⟩ := Option.map_eq_some_iff.mp h
  have hk : s.role = role ∧ s.label.name = label := by simpa using List.find?_some hs
  exact ⟨s, List.mem_of_find?_eq_some hs, hk.1, hk.2, rfl⟩

theorem blockOf?_eq_of_mem (hr : g.repeatedLabels = []) (hs : s ∈ g.labelSites) :
    g.blockOf? s.role s.label.name = some s.block := by
  have hn := repeats_eq_nil_iff.mp (List.map_eq_nil_iff.mp hr)
  cases hf : g.labelSites.find? fun t => t.role = s.role ∧ t.label.name = s.label.name with
  | none =>
    have := List.find?_eq_none.mp hf s hs
    simp at this
  | some t =>
    have hk : t.role = s.role ∧ t.label.name = s.label.name := by simpa using List.find?_some hf
    have ht : t = s := List.inj_on_of_nodup_map hn (List.mem_of_find?_eq_some hf) hs
      (Prod.ext hk.1 hk.2)
    rw [blockOf?, hf, ht, Option.map_some]

theorem mem_predecessors_iff : j ∈ g.predecessors i ↔
    ∃ b, g.blocks[i]? = some b ∧ ∃ l ∈ b.entryLabels, g.blockOf? .exit l.name = some j := by
  rw [predecessors]
  split
  · next h => simp [h]
  · next b h => simp [h, linked, List.mem_filterMap]

theorem mem_successors_iff : j ∈ g.successors i ↔
    ∃ b, g.blocks[i]? = some b ∧ ∃ l ∈ b.exitLabels, g.blockOf? .entry l.name = some j := by
  rw [successors]
  split
  · next h => simp [h]
  · next b h => simp [h, linked, List.mem_filterMap]

theorem predecessors_eq (g : ControlGraph) (i : Nat) :
    g.predecessors i = g.linked .exit (Block.entryLabels ⟨0, g.instructions i⟩) := by
  rw [predecessors, instructions]
  cases g.blocks[i]? <;> rfl

/-- A block that has the entry labels of a block in another graph has the same predecessors, in the
numbers that the blocks with these labels have now. -/
theorem predecessors_eq_map {g' : ControlGraph} {σ : Nat → Nat} (hσ : Function.Injective σ)
    (hlabels : Block.entryLabels ⟨0, g'.instructions j⟩ = Block.entryLabels ⟨0, g.instructions i⟩)
    (hblock : ∀ x ∈ Block.entryLabels ⟨0, g.instructions i⟩,
      g'.blockOf? .exit x.name = (g.blockOf? .exit x.name).map σ) :
    g'.predecessors j = (g.predecessors i).map σ := by
  have hlinked : (Block.entryLabels ⟨0, g.instructions i⟩).filterMap
        (fun x => g'.blockOf? .exit x.name) =
      ((Block.entryLabels ⟨0, g.instructions i⟩).filterMap
        fun x => g.blockOf? .exit x.name).map σ := by
    rw [List.map_filterMap]
    exact List.filterMap_congr hblock
  rw [predecessors_eq, predecessors_eq, hlabels, linked, linked, hlinked,
    firsts_map_of_injective hσ]

theorem lt_size_of_mem_predecessors (h : j ∈ g.predecessors i) : i < g.size ∧ j + 1 < g.size := by
  obtain ⟨b, hb, l, -, hj⟩ := mem_predecessors_iff.mp h
  obtain ⟨s, hs, hr, -, rfl⟩ := exists_site_of_blockOf? hj
  obtain ⟨-, -, -, hlink⟩ := mem_labelSites_iff.mp hs
  rw [hr] at hlink
  exact ⟨(List.getElem?_eq_some_iff.mp hb).1, hlink⟩

theorem mem_body_of_mem_instructions {i : Instruction} {b : Nat}
    (h : i ∈ (ofRoutine r).instructions b) : i ∈ r.body := by
  rw [instructions] at h
  split at h
  · simp at h
  · next hb => exact Block.mem_body_of_mem_ofBody (List.mem_of_getElem? hb) h

theorem size_pos (r : Routine) : 0 < (ofRoutine r).size :=
  List.length_pos_iff.mpr (Block.ofBody_ne_nil r.body)

theorem cutFaults_of_faults (h : faults r = []) : Block.cutFaults true r.body = [] := by
  simp only [faults, List.append_eq_nil_iff] at h
  exact h.1.1.1

theorem repeatedLabels_of_faults (h : faults r = []) : (ofRoutine r).repeatedLabels = [] := by
  simp only [faults, List.append_eq_nil_iff] at h
  exact h.1.1.2

theorem predecessors_first (h : faults r = []) : (ofRoutine r).predecessors 0 = [] := by
  rw [List.eq_nil_iff_forall_not_mem]
  intro j hj
  obtain ⟨b, hb, l, hl, -⟩ := mem_predecessors_iff.mp hj
  rw [Block.entryLabels_of_head (List.head?_eq_getElem? .. ▸ hb) (cutFaults_of_faults h)] at hl
  simp at hl

theorem mem_successors_of_mem_predecessors (h : faults r = []) (i j : Nat)
    (hj : j ∈ (ofRoutine r).predecessors i) : i ∈ (ofRoutine r).successors j := by
  have hr := repeatedLabels_of_faults h
  have hi : 0 < i := by
    rcases Nat.eq_zero_or_pos i with rfl | hi
    · rw [predecessors_first h] at hj
      simp at hj
    · exact hi
  obtain ⟨b, hb, l, hl, hlj⟩ := mem_predecessors_iff.mp hj
  obtain ⟨s, hs, hrole, hname, rfl⟩ := exists_site_of_blockOf? hlj
  obtain ⟨c, hc, hlabel, -⟩ := mem_labelSites_iff.mp hs
  rw [hrole] at hlabel
  have hsite : (⟨.entry, l, i⟩ : LabelSite) ∈ (ofRoutine r).labelSites :=
    mem_labelSites_iff.mpr ⟨b, hb, hl, hi⟩
  refine mem_successors_iff.mpr ⟨c, hc, s.label, hlabel, ?_⟩
  rw [hname]
  exact blockOf?_eq_of_mem hr hsite

end ControlGraph

end Reversible
