import Reversible.Marks.Table
import Reversible.Proofs.Layout.Map
import Reversible.Proofs.Marks.Difference
import Reversible.Proofs.Marks.Follow

/-! # The locations that a table marks

A table marks the locations that the paths marked in it cover. Marking a path finds out whether one
of the earlier paths overlaps it. The places in the difference of two tables do not overlap, and
each location that only the first one marks is in one of them. The difference is empty if and only
if the paths of the second table cover all locations that those of the first one cover.
-/

namespace Reversible

namespace MarkTable

variable {env : Environment} {types : TypeTable} {l : Layout Ty} {t other : MarkTable}
  {base ty : Ty} {p q : MemoryPath} {paths : List MemoryPath}

def marks (t : MarkTable) (q : MemoryPath) : Bool :=
  match t.slots.leafAt q.resource with
  | .ok (some tree) => tree.marks q.segments
  | _ => false

/-- A table with a tree for each slot of a layout that holds a reference, and nothing in others. -/
structure Fits (t : MarkTable) (types : TypeTable) (l : Layout Ty) : Prop where
  types_eq : t.types = types
  reference : ∀ path base, l.leafAt path = .ok (.reference base) →
    ∃ tree, t.slots.leafAt path = .ok (some tree) ∧ tree.Fits types (.reference base)
  rest : ∀ path, (∀ base, l.leafAt path ≠ .ok (.reference base)) →
    t.slots.leafAt path = (l.leafAt path).map fun _ => none

theorem marks_of_leafAt {path : ResourcePath} {tree : MarkTree}
    (h : t.slots.leafAt path = .ok (some tree)) (hq : q.resource = path) :
    t.marks q = tree.marks q.segments := by
  rw [marks, hq, h]

theorem Fits.of_leafAt (h : t.Fits types l) {path : ResourcePath} {tree : MarkTree}
    (ht : t.slots.leafAt path = .ok (some tree)) :
    ∃ base, l.leafAt path = .ok (.reference base) ∧ tree.Fits types (.reference base) := by
  by_cases hb : ∃ base, l.leafAt path = .ok (.reference base)
  · obtain ⟨base, hb⟩ := hb
    obtain ⟨tree', ht', hf⟩ := h.reference path base hb
    obtain ⟨⟩ := ht.symm.trans ht'
    exact ⟨base, hb, hf⟩
  · have := ht.symm.trans (h.rest path (not_exists.mp hb))
    cases hl : l.leafAt path <;> simp [hl, Except.map] at this

theorem exists_layout_of_blank (h : blank env = .ok t) : ∃ l, env.layout = .ok l ∧
    t = ⟨env.types, l.map slotTree⟩ := by
  rw [blank] at h
  cases hl : env.layout with
  | error e => simp [hl, bind, Except.bind] at h
  | ok l =>
    rw [hl] at h
    exact ⟨l, rfl, (Except.ok.inj h).symm⟩

theorem fits_blank : Fits ⟨types, l.map slotTree⟩ types l where
  types_eq := rfl
  reference path base hb := by
    refine ⟨.pointingTo base, ?_, .closed (.refl (by simp))⟩
    rw [Layout.leafAt_map, hb]
    rfl
  rest path hno := by
    rw [Layout.leafAt_map]
    cases hl : l.leafAt path with
    | error e => rfl
    | ok ty =>
      cases ty with
      | reference base => exact absurd hl (hno base)
      | _ => rfl

theorem marks_blank : (⟨types, l.map slotTree⟩ : MarkTable).marks q = false := by
  rw [marks, Layout.leafAt_map]
  cases l.leafAt q.resource with
  | error e => rfl
  | ok ty =>
    cases ty with
    | reference base => simp [Except.map, slotTree, MarkTree.pointingTo, MarkTree.marks]
    | _ => rfl

/-! ### Marking a path -/

theorem shape_mark (t : MarkTable) (p : MemoryPath) :
    (t.mark p).1.slots.shape = t.slots.shape := by
  rw [mark]
  split
  · rfl
  · rfl
  · exact Layout.shape_modify ..

theorem mark_of_reference (h : t.Fits types l)
    (hb : l.leafAt p.resource = .ok (.reference base)) :
    ∃ tree tree' found, t.slots.leafAt p.resource = .ok (some tree) ∧
      MarkTree.Followed types (.reference base) p.segments tree tree' found ∧
      t.mark p = ({ t with slots := t.slots.modify p.resource fun _ => some tree' },
        found.map (·.isMarked)) := by
  obtain ⟨tree, ht, hf⟩ := h.reference p.resource base hb
  refine ⟨tree, _, _, ht, MarkTree.followed_follow hf (.ofResource p.resource) p.segments, ?_⟩
  rw [mark, ht, h.types_eq]

theorem mark_of_ne_reference (h : t.Fits types l)
    (hno : ∀ base, l.leafAt p.resource ≠ .ok (.reference base)) :
    ∃ e, t.mark p = (t, .error e) := by
  rw [mark, h.rest p.resource hno]
  cases l.leafAt p.resource with
  | error e => exact ⟨e, rfl⟩
  | ok ty => exact ⟨_, rfl⟩

theorem Fits.modify (h : t.Fits types l) {path : ResourcePath} {tree tree' : MarkTree}
    (hb : l.leafAt path = .ok (.reference base)) (ht : t.slots.leafAt path = .ok (some tree))
    (hf : tree'.Fits types (.reference base)) :
    Fits { t with slots := t.slots.modify path fun _ => some tree' } types l where
  types_eq := h.types_eq
  reference path' base' hb' := by
    rw [Layout.leafAt_modify_leaf ht]
    split
    · next heq =>
      obtain ⟨⟩ := hb.symm.trans (heq ▸ hb')
      exact ⟨tree', rfl, hf⟩
    · exact h.reference path' base' hb'
  rest path' hno := by
    rw [Layout.leafAt_modify_leaf ht, if_neg, h.rest path' hno]
    rintro rfl
    exact hno base hb

theorem Fits.mark (h : t.Fits types l) (p : MemoryPath) : (t.mark p).1.Fits types l := by
  by_cases hb : ∃ base, l.leafAt p.resource = .ok (.reference base)
  · obtain ⟨base, hb⟩ := hb
    obtain ⟨tree, tree', found, ht, hfollow, hmark⟩ := mark_of_reference h hb
    rw [hmark]
    cases hfollow with
    | found hf _ _ _ _ => exact h.modify hb ht hf
    | failed hf _ _ => exact h.modify hb ht hf
  · obtain ⟨e, hmark⟩ := mark_of_ne_reference h (not_exists.mp hb)
    rw [hmark]
    exact h

theorem marks_modify {tree tree' : MarkTree} (ht : t.slots.leafAt p.resource = .ok (some tree)) :
    marks { t with slots := t.slots.modify p.resource fun _ => some tree' } q =
      if q.resource = p.resource then tree'.marks q.segments else t.marks q := by
  rw [marks, Layout.leafAt_modify_leaf ht]
  by_cases heq : q.resource = p.resource
  · rw [if_pos heq, if_pos heq]
  · rw [if_neg heq, if_neg heq, marks]

/-- The paths marked in a table so far. -/
structure Records (env : Environment) (l : Layout Ty) (t : MarkTable) (paths : List MemoryPath) :
    Prop where
  fits : t.Fits env.types l
  leads : ∀ p ∈ paths, ∃ ty, env.Leads p ty
  marks_iff : ∀ q, env.IsLocation q → (t.marks q ↔ ∃ p ∈ paths, p.Covers q)

theorem exists_records_of_blank (h : blank env = .ok t) :
    ∃ l, env.layout = .ok l ∧ Records env l t [] := by
  obtain ⟨l, hl, rfl⟩ := exists_layout_of_blank h
  exact ⟨l, hl, fits_blank, by simp, by simp [marks_blank]⟩

section Environment

variable (hl : env.layout = .ok l)
include hl

/-- A path that cannot be followed is refused, and changes no mark. -/
theorem mark_of_not_leads (h : t.Fits env.types l) (hp : ∀ ty, ¬ env.Leads p ty) :
    (∃ e, (t.mark p).2 = .error e) ∧ (t.mark p).1.Fits env.types l ∧
      ∀ q, env.IsLocation q → (t.mark p).1.marks q = t.marks q := by
  by_cases hb : ∃ base, l.leafAt p.resource = .ok (.reference base)
  · obtain ⟨base, hb⟩ := hb
    obtain ⟨tree, tree', found, ht, hfollow, hmark⟩ := mark_of_reference h hb
    rw [hmark]
    cases hfollow with
    | found _ hlead _ _ _ => exact absurd ((Environment.leads_iff hl).mpr ⟨base, hb, hlead⟩) (hp _)
    | @failed e hf hno hm =>
      refine ⟨⟨e, rfl⟩, h.modify hb ht hf, fun q hq => ?_⟩
      rw [marks_modify ht]
      split
      · next heq =>
        obtain ⟨base', hb', hq⟩ := (Environment.isLocation_iff hl).mp hq
        obtain ⟨⟩ := hb.symm.trans (heq ▸ hb')
        rw [hm _ hq, marks_of_leafAt ht heq]
      · rfl
  · obtain ⟨e, hmark⟩ := mark_of_ne_reference h (not_exists.mp hb)
    rw [hmark]
    exact ⟨⟨e, rfl⟩, h, fun _ _ => rfl⟩

variable (he : env.isProper)
include he

/-- A place is found marked if a location at or below it is marked, and then all of them are. -/
theorem mark_of_leads (h : t.Fits env.types l) (hp : env.Leads p ty) :
    (∃ twice, (t.mark p).2 = .ok twice ∧
      (twice ↔ ∃ q, env.IsLocation q ∧ p.Covers q ∧ t.marks q)) ∧
    (t.mark p).1.Fits env.types l ∧
    ∀ q, env.IsLocation q → ((t.mark p).1.marks q ↔ t.marks q ∨ p.Covers q) := by
  obtain ⟨base, hb, hp⟩ := (Environment.leads_iff hl).mp hp
  obtain ⟨tree, tree', found, ht, hfollow, hmark⟩ := mark_of_reference h hb
  rw [hmark]
  cases hfollow with
  | failed _ hno _ => exact absurd hp (hno ty)
  | @found found ty' hf hlead hff hfm hm =>
    have hplace : env.Leads p ty' := (Environment.leads_iff hl).mpr ⟨base, hb, hlead⟩
    have hmarks : ∀ rest, t.marks (p.extend rest) = tree.marks (p.segments ++ rest) :=
      fun _ => marks_of_leafAt ht rfl
    refine ⟨⟨found.isMarked, rfl, ?_⟩, h.modify hb ht hf, fun q hq => ?_⟩
    · rw [hff.isMarked_iff (Environment.isProper_types he)
        (Environment.isProper_of_leads he hplace)]
      constructor
      · rintro ⟨rest, hr, hm⟩
        rw [hfm rest hr, ← hmarks] at hm
        exact ⟨p.extend rest, (Environment.isLocation_extend_iff hplace).mpr hr,
          p.covers_extend rest, hm⟩
      · rintro ⟨q, hq, hcov, hm⟩
        obtain ⟨rest, rfl⟩ := MemoryPath.covers_iff.mp hcov
        have hr := (Environment.isLocation_extend_iff hplace).mp hq
        rw [hmarks, ← hfm rest hr] at hm
        exact ⟨rest, hr, hm⟩
    · rw [marks_modify ht]
      split
      · next heq =>
        obtain ⟨base', hb', hq⟩ := (Environment.isLocation_iff hl).mp hq
        obtain ⟨⟩ := hb.symm.trans (heq ▸ hb')
        rw [hm _ hq, marks_of_leafAt ht heq]
        simp [MemoryPath.Covers, heq]
      · next hne => simp [MemoryPath.Covers, Ne.symm hne]

/-- Marking a path finds out whether an earlier path overlaps it, and adds it to the paths. -/
theorem Records.mark (h : Records env l t paths) (hp : env.Leads p ty) :
    (∃ twice, (t.mark p).2 = .ok twice ∧ (twice ↔ ∃ d ∈ paths, d.Overlaps p)) ∧
      Records env l (t.mark p).1 (p :: paths) := by
  obtain ⟨⟨twice, htwice, hiff⟩, hfits, hmarks⟩ := mark_of_leads hl he h.fits hp
  refine ⟨⟨twice, htwice, hiff.trans ?_⟩, hfits, ?_, fun q hq => ?_⟩
  · constructor
    · rintro ⟨q, hq, hpq, hm⟩
      obtain ⟨d, hd, hdq⟩ := (h.marks_iff q hq).mp hm
      exact ⟨d, hd, MemoryPath.overlaps_of_covers hdq hpq⟩
    · rintro ⟨d, hd, hdp | hpd⟩
      · obtain ⟨q, hq, hpq⟩ := Environment.exists_isLocation he hp
        exact ⟨q, hq, hpq, (h.marks_iff q hq).mpr ⟨d, hd, hdp.trans hpq⟩⟩
      · obtain ⟨ty', hty'⟩ := h.leads d hd
        obtain ⟨q, hq, hdq⟩ := Environment.exists_isLocation he hty'
        exact ⟨q, hq, hpd.trans hdq, (h.marks_iff q hq).mpr ⟨d, hd, hdq⟩⟩
  · exact List.forall_mem_cons.mpr ⟨⟨ty, hp⟩, h.leads⟩
  · rw [hmarks q hq, h.marks_iff q hq]
    simp [or_comm]

omit he hl in
theorem mem_trees_iff {path : ResourcePath} {tree : MarkTree} :
    (path, tree) ∈ t.trees ↔ t.slots.leafAt path = .ok (some tree) := by
  rw [trees, List.mem_filterMap]
  constructor
  · rintro ⟨path', -, hp⟩
    split at hp
    · next heq =>
      obtain ⟨⟩ := hp
      exact heq
    · cases hp
  · intro h
    exact ⟨path, Layout.mem_paths_of_leafAt h, by rw [h]⟩

section Difference

variable (h : t.Fits env.types l) (ho : other.Fits env.types l)
include h ho

theorem Fits.subtracted {path : ResourcePath} {tree : MarkTree} (ht : (path, tree) ∈ t.trees) :
    ∃ base, l.leafAt path = .ok (.reference base) ∧
      MarkTree.Subtracted env.types (.reference base) (.ofResource path)
        (fun rest => t.marks ((MemoryPath.ofResource path).extend rest))
        (fun rest => other.marks ((MemoryPath.ofResource path).extend rest))
        (tree.subtract (.ofResource path) ((other.slots.leafAt path).toOption.bind id)) := by
  replace ht := mem_trees_iff.mp ht
  obtain ⟨base, hb, hf⟩ := h.of_leafAt ht
  obtain ⟨tree', ht', hf'⟩ := ho.reference path base hb
  have hfits : ∀ o ∈ some tree', o.Fits env.types (.reference base) := by
    rintro _ ⟨⟩
    exact hf'
  have hm : ∀ rest, t.marks ((MemoryPath.ofResource path).extend rest) = tree.marks rest :=
    fun _ => marks_of_leafAt ht rfl
  have hm' : ∀ rest, other.marks ((MemoryPath.ofResource path).extend rest) = tree'.marks rest :=
    fun _ => marks_of_leafAt ht' rfl
  simp only [hm, hm', ht']
  exact ⟨base, hb, hf.subtracted (Environment.isProper_types he)
    (Environment.isProper_of_leafAt he hl hb) _ hfits⟩

theorem Fits.excess_of_mem_difference (hd : p ∈ t.difference other) : ∃ ty, env.Leads p ty ∧
    MarkTree.Excess env.types (fun rest => t.marks (p.extend rest))
      (fun rest => other.marks (p.extend rest)) ty := by
  obtain ⟨⟨path, tree⟩, hmem, hd⟩ := List.mem_flatMap.mp hd
  obtain ⟨base, hb, hsub⟩ := h.subtracted hl he ho hmem
  obtain ⟨steps, ty, rfl, hlead, hex⟩ := hsub.excess hd
  refine ⟨ty, (Environment.leads_iff hl).mpr ⟨base, hb, hlead⟩, ?_⟩
  simpa only [MemoryPath.extend_extend] using hex

theorem Fits.exists_mem_difference (hq : env.IsLocation q) (hm : t.marks q)
    (hno : ¬ other.marks q) : ∃ d ∈ t.difference other, d.Covers q := by
  obtain ⟨base, hb, hseg⟩ := (Environment.isLocation_iff hl).mp hq
  obtain ⟨tree, ht, -⟩ := h.reference q.resource base hb
  have hmem := mem_trees_iff.mpr ht
  obtain ⟨base', hb', hsub⟩ := h.subtracted hl he ho hmem
  obtain ⟨⟩ := hb.symm.trans hb'
  obtain ⟨d, hd, hcov⟩ := hsub.exists_covers hseg hm hno
  exact ⟨d, List.mem_flatMap.mpr ⟨_, hmem, hd⟩, hcov⟩

theorem difference_eq_nil_iff :
    t.difference other = [] ↔ ∀ q, env.IsLocation q → t.marks q → other.marks q := by
  constructor
  · intro hnil q hq hm
    by_contra hno
    obtain ⟨d, hd, -⟩ := h.exists_mem_difference hl he ho hq hm hno
    rw [hnil] at hd
    cases hd
  · intro hsub
    refine List.eq_nil_iff_forall_not_mem.mpr fun d hd => ?_
    obtain ⟨ty, hlead, hex⟩ := h.excess_of_mem_difference hl he ho hd
    obtain ⟨rest, hr, hm, hno⟩ := hex.exists_isLocation (Environment.isProper_types he)
      (Environment.isProper_of_leads he hlead)
    exact hno (hsub _ ((Environment.isLocation_extend_iff hlead).mpr hr) hm)

omit he hl h ho in
theorem pairwise_trees (hn : t.slots.paths.Nodup) : t.trees.Pairwise fun a b => a.1 ≠ b.1 := by
  refine List.Pairwise.filterMap _ (fun path path' hne a ha a' ha' => ?_) hn
  split at ha <;> cases ha
  split at ha' <;> cases ha'
  exact hne

theorem Fits.pairwise_difference (hn : t.slots.paths.Nodup) :
    (t.difference other).Pairwise fun d d' => ¬ d.Overlaps d' := by
  refine List.pairwise_flatMap.mpr ⟨?_, (pairwise_trees hn).imp_of_mem ?_⟩
  · rintro ⟨path, tree⟩ hmem
    obtain ⟨base, hb, hsub⟩ := h.subtracted hl he ho hmem
    exact hsub.apart (Environment.isProper_types he) (Environment.isProper_of_leafAt he hl hb)
  · rintro ⟨path, tree⟩ ⟨path', tree'⟩ hmem hmem' hne d hd d' hd' hover
    obtain ⟨base, -, hsub⟩ := h.subtracted hl he ho hmem
    obtain ⟨base', -, hsub'⟩ := h.subtracted hl he ho hmem'
    have hres : path = d.resource := (hsub.covers hd).1
    have hres' : path' = d'.resource := (hsub'.covers hd').1
    rcases hover with hcov | hcov
    · exact hne (hres.trans (hcov.1.trans hres'.symm))
    · exact hne (hres.trans (hcov.1.symm.trans hres'.symm))

end Difference

theorem Records.difference_eq_nil_iff {paths' : List MemoryPath} (h : Records env l t paths)
    (ho : Records env l other paths') : t.difference other = [] ↔
      ∀ q, env.IsLocation q → (∃ p ∈ paths, p.Covers q) → ∃ p ∈ paths', p.Covers q := by
  rw [MarkTable.difference_eq_nil_iff hl he h.fits ho.fits]
  refine forall₂_congr fun q hq => ?_
  rw [h.marks_iff q hq, ho.marks_iff q hq]

end Environment

theorem subtract_of_leafAt_blank {path : ResourcePath} {tree : MarkTree}
    (h : (l.map slotTree).leafAt path = .ok (some tree)) (here : MemoryPath)
    (o : Option MarkTree) : tree.subtract here o = [] := by
  rw [Layout.leafAt_map] at h
  obtain ⟨ty, hty⟩ : ∃ ty, slotTree ty = some tree := by
    cases hl : l.leafAt path with
    | error e => simp [hl, Except.map] at h
    | ok ty => exact ⟨ty, by simpa [hl, Except.map] using h⟩
  cases ty with
  | reference base =>
    obtain rfl := Option.some.inj hty
    simp [MarkTree.pointingTo, MarkTree.subtract]
  | _ => cases hty

theorem difference_blank (types : TypeTable) (l : Layout Ty) (other : MarkTable) :
    (⟨types, l.map slotTree⟩ : MarkTable).difference other = [] :=
  List.flatMap_eq_nil_iff.mpr fun _ hmem => subtract_of_leafAt_blank (mem_trees_iff.mp hmem) _ _

end MarkTable

end Reversible
