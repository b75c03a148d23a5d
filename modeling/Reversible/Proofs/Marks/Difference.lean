import Reversible.Proofs.Marks.Tree

/-! # The difference of marking trees

A difference names places, from outside to inside. A place is named as a whole if it holds a value
without members that is marked with all that lies behind it, or a structure in which something of
each member is marked, and the other tree has none of it. Each location that only the first tree
marks is in one of the named places, and there is such a location in each of them. The trees may be
unfolded to different depths, and one may mark as a whole what the other marks in parts.
-/

namespace Reversible

namespace MarkTree

variable {types : TypeTable} {t : MarkTree} {ty ty' base : Ty} {name : Name}
  {rest : List MemorySegment} {members : List (Name × MarkTree)} {tys : List (Name × Ty)}
  {other : Option MarkTree} {m o : List MemorySegment → Bool} {here d : MemoryPath}
  {ds : List MemoryPath}

theorem Fits.isReferenceMarked_eq (h : Fits types t ty) (hr : types.Resolves ty (.reference base)) :
    t.isReferenceMarked = t.marks [] := by
  rcases h.reference hr with ⟨marked, rfl⟩ | ⟨marked, target, rfl, -⟩
  · rw [isReferenceMarked, marks]
  · simp [isReferenceMarked, marks]

theorem Fits.marks_of_marks_nil (h : Fits types t ty) (hr : types.Resolves ty (.reference base))
    (hm : t.marks []) (hl : types.IsLocation ty rest) : t.marks rest := by
  rcases h.reference hr with ⟨marked, rfl⟩ | ⟨marked, target, rfl, -, -, hall⟩
  · rwa [marks] at hm ⊢
  · rcases (TypeTable.isLocation_reference_iff hr).mp hl with rfl | ⟨rest, rfl, -, hl⟩
    · exact hm
    · rw [marks]
      exact hall (by simpa [marks] using hm) rest hl

section Other

variable (ho : ∀ o ∈ other, Fits types o ty)
include ho

theorem any_isMarked_iff (ht : types.isProper) (hp : ty.isProper) : other.any isMarked ↔
    ∃ rest, types.IsLocation ty rest ∧ other.any (·.marks rest) := by
  cases other with
  | none => simp
  | some o => exact (ho o rfl).isMarked_iff ht hp

theorem any_isReferenceMarked_eq (hr : types.Resolves ty (.reference base)) :
    other.any isReferenceMarked = other.any (·.marks []) := by
  cases other with
  | none => rfl
  | some o => exact (ho o rfl).isReferenceMarked_eq hr

theorem any_marks_of_nil (hr : types.Resolves ty (.reference base)) (hm : other.any (·.marks []))
    (hl : types.IsLocation ty rest) : other.any (·.marks rest) := by
  cases other with
  | none => cases hm
  | some o => exact (ho o rfl).marks_of_marks_nil hr hm hl

theorem fits_target? (hr : types.Resolves ty (.reference base)) :
    ∀ o ∈ other.bind target?, Fits types o base := by
  intro u hu
  obtain ⟨o, rfl, hu⟩ := Option.bind_eq_some_iff.mp hu
  rcases (ho o rfl).reference hr with ⟨marked, rfl⟩ | ⟨marked, target, rfl, -, hf, -⟩
  · cases hu
  · exact Option.some.inj hu ▸ hf

theorem any_marks_target? (hr : types.Resolves ty (.reference base))
    (hm : ¬ other.any (·.marks [])) :
    (other.bind target?).any (·.marks rest) = other.any (·.marks (.deref :: rest)) := by
  cases other with
  | none => rfl
  | some o =>
    rcases (ho o rfl).reference hr with ⟨marked, rfl⟩ | ⟨marked, target, rfl, -⟩
    · simpa [target?, marks] using hm
    · simp [target?, marks]

theorem fits_member? (hr : types.Resolves ty (.record tys)) (hty : tys.lookup name = some ty') :
    ∀ o ∈ other.bind (·.member? name), Fits types o ty' := by
  intro u hu
  obtain ⟨o, rfl, hu⟩ := Option.bind_eq_some_iff.mp hu
  obtain ⟨members, rfl, -, hall⟩ := (ho o rfl).structure hr
  exact hall name u ty' hu hty

theorem any_marks_member? (hr : types.Resolves ty (.record tys)) :
    (other.bind (·.member? name)).any (·.marks rest) =
      other.any (·.marks (.member name :: rest)) := by
  cases other with
  | none => rfl
  | some o =>
    obtain ⟨members, rfl, -⟩ := (ho o rfl).structure hr
    simp only [Option.bind_some, member?, Option.any_some, marks]
    cases members.lookup name <;> rfl

end Other

/-- A place to name as a whole, by the locations at or below it that are marked in a tree and in the
other one. -/
inductive Excess (types : TypeTable) (m o : List MemorySegment → Bool) (ty : Ty) : Prop where
  | value {plain : Ty} : types.Resolves ty plain → plain.isPlain →
      (∀ rest, types.IsLocation ty rest → m rest) → ¬ o [] → Excess types m o ty
  | record {tys : List (Name × Ty)} : types.Resolves ty (.record tys) →
      (∀ name of, tys.lookup name = some of →
        ∃ rest, types.IsLocation of rest ∧ m (.member name :: rest)) →
      (∀ rest, types.IsLocation ty rest → ¬ o rest) → Excess types m o ty

/-- The places named at or below one that holds a value of a type. -/
inductive Subtracted (types : TypeTable) : Ty → MemoryPath → (List MemorySegment → Bool) →
    (List MemorySegment → Bool) → List MemoryPath → Prop where
  | nothing {ty : Ty} {here : MemoryPath} {m o : List MemorySegment → Bool} :
      (∀ rest, types.IsLocation ty rest → m rest → o rest) → Subtracted types ty here m o []
  | whole {ty : Ty} {here : MemoryPath} {m o : List MemorySegment → Bool} :
      Excess types m o ty → Subtracted types ty here m o [here]
  | behind {ty base : Ty} {here : MemoryPath} {m o : List MemorySegment → Bool}
      {ds : List MemoryPath} : types.Resolves ty (.reference base) → types.Unfolds base → ¬ m [] →
      Subtracted types base (here.push .deref) (fun rest => m (.deref :: rest))
        (fun rest => o (.deref :: rest)) ds →
      Subtracted types ty here m o ds
  | members {ty : Ty} {here : MemoryPath} {m o : List MemorySegment → Bool}
      {tys : List (Name × Ty)} {parts : List (Name × List MemoryPath)} :
      types.Resolves ty (.record tys) → parts.map (·.1) = tys.map (·.1) →
      (∀ name ds of, (name, ds) ∈ parts → tys.lookup name = some of →
        Subtracted types of (here.push (.member name)) (fun rest => m (.member name :: rest))
          (fun rest => o (.member name :: rest)) ds) →
      Subtracted types ty here m o (parts.flatMap (·.2))

theorem Excess.exists_isLocation (h : Excess types m o ty) (ht : types.isProper)
    (hp : ty.isProper) : ∃ rest, types.IsLocation ty rest ∧ m rest ∧ ¬ o rest := by
  cases h with
  | value hr hplain hall ho =>
    have hl := TypeTable.isLocation_nil hr hplain
    exact ⟨[], hl, hall [] hl, ho⟩
  | record hr hall ho =>
    obtain ⟨hne, hnodup, -⟩ := Ty.isProper_record_iff.mp (hr.isProper ht hp)
    obtain ⟨⟨name, of⟩, hmem⟩ := List.exists_mem_of_ne_nil _ hne
    have hof := lookup_of_mem hnodup hmem
    obtain ⟨rest, hl, hm⟩ := hall name of hof
    exact ⟨.member name :: rest, hl.member hr hof, hm, ho _ (hl.member hr hof)⟩

namespace Subtracted

theorem excess (h : Subtracted types ty here m o ds) (hd : d ∈ ds) :
    ∃ steps ty', d = here.extend steps ∧ types.Leads ty steps ty' ∧
      Excess types (fun rest => m (steps ++ rest)) (fun rest => o (steps ++ rest)) ty' := by
  induction h with
  | nothing _ => cases hd
  | @whole ty here m o hex => exact ⟨[], ty, by simpa using hd, .here, hex⟩
  | behind hr hu _ _ ih =>
    obtain ⟨steps, ty', rfl, hlead, hex⟩ := ih hd
    exact ⟨.deref :: steps, ty', by simp, .deref hr hu hlead, hex⟩
  | @members ty here m o tys parts hr hnames _ ih =>
    obtain ⟨⟨name, ds⟩, hmem, hd⟩ := List.mem_flatMap.mp hd
    obtain ⟨of, hof⟩ : ∃ of, tys.lookup name = some of :=
      exists_lookup_iff.mpr (hnames ▸ List.mem_map.mpr ⟨_, hmem, rfl⟩)
    obtain ⟨steps, ty', rfl, hlead, hex⟩ := ih name ds of hmem hof hd
    exact ⟨.member name :: steps, ty', by simp, .member hr hof hlead, hex⟩

theorem exists_covers (h : Subtracted types ty here m o ds) (hl : types.IsLocation ty rest)
    (hm : m rest) (ho : ¬ o rest) : ∃ d ∈ ds, d.Covers (here.extend rest) := by
  induction h generalizing rest with
  | nothing hsub => exact absurd (hsub rest hl hm) ho
  | @whole ty here m o _ => exact ⟨here, List.mem_singleton_self here, here.covers_extend rest⟩
  | behind hr _ hcell _ ih =>
    rcases (TypeTable.isLocation_reference_iff hr).mp hl with rfl | ⟨rest, rfl, -, hl⟩
    · exact absurd hm hcell
    · simpa only [MemoryPath.push_extend] using ih hl hm ho
  | @members ty here m o tys parts hr hnames _ ih =>
    obtain ⟨name, of, rest, rfl, hof, hrest⟩ := (TypeTable.isLocation_record_iff hr).mp hl
    have hname : name ∈ parts.map (·.1) := hnames ▸ exists_lookup_iff.mp ⟨of, hof⟩
    obtain ⟨⟨name, ds⟩, hmem, rfl⟩ := List.mem_map.mp hname
    obtain ⟨d, hd, hcov⟩ := ih name ds of hmem hof hrest hm ho
    rw [MemoryPath.push_extend] at hcov
    exact ⟨d, List.mem_flatMap.mpr ⟨_, hmem, hd⟩, hcov⟩

theorem covers (h : Subtracted types ty here m o ds) (hd : d ∈ ds) : here.Covers d := by
  obtain ⟨steps, -, rfl, -⟩ := h.excess hd
  exact here.covers_extend steps

theorem apart (h : Subtracted types ty here m o ds) (ht : types.isProper) (hp : ty.isProper) :
    ds.Pairwise fun d d' => ¬ d.Overlaps d' := by
  induction h with
  | nothing _ => exact .nil
  | whole _ => exact List.pairwise_singleton _ _
  | behind hr _ _ _ ih => exact ih (by simpa [Ty.isProper] using hr.isProper ht hp)
  | @members ty here m o tys parts hr hnames hparts ih =>
    obtain ⟨-, hnodup, hall⟩ := Ty.isProper_record_iff.mp (hr.isProper ht hp)
    have hlook : ∀ part ∈ parts, ∃ of, tys.lookup part.1 = some of := fun part hmem =>
      exists_lookup_iff.mpr (hnames ▸ List.mem_map_of_mem hmem)
    refine List.pairwise_flatMap.mpr ⟨fun part hmem => ?_, ?_⟩
    · obtain ⟨of, hof⟩ := hlook part hmem
      exact ih part.1 part.2 of hmem hof (hall _ (mem_of_lookup hof))
    · -- places in different members differ in the first step
      rw [← hnames, List.nodup_iff_pairwise_ne, List.pairwise_map] at hnodup
      refine hnodup.imp_of_mem fun {a b} ha hb hne d hd d' hd' hover => hne ?_
      obtain ⟨of, hof⟩ := hlook a ha
      obtain ⟨of', hof'⟩ := hlook b hb
      obtain ⟨steps, rfl⟩ := MemoryPath.covers_iff.mp ((hparts _ _ _ ha hof).covers hd)
      obtain ⟨steps', rfl⟩ := MemoryPath.covers_iff.mp ((hparts _ _ _ hb hof').covers hd')
      simp only [MemoryPath.Overlaps, MemoryPath.push_extend, MemoryPath.covers_extend_iff,
        List.cons_prefix_cons, MemorySegment.member.injEq] at hover
      rcases hover with ⟨heq, -⟩ | ⟨heq, -⟩
      · exact heq
      · exact heq.symm

end Subtracted

theorem subtractMembers_eq_flatMap : subtractMembers here members other =
    members.flatMap fun m =>
      subtract (here.push (.member m.1)) m.2 (other.bind (·.member? m.1)) := by
  induction members with
  | nil => rfl
  | cons m rest ih => rw [subtractMembers, ih, List.flatMap_cons]

theorem Fits.subtracted_of_not_isMarked (h : Fits types t ty) (ht : types.isProper)
    (hp : ty.isProper) (hm : ¬ t.isMarked) : Subtracted types ty here t.marks o [] :=
  .nothing fun rest hl hmr => absurd ((h.isMarked_iff ht hp).mpr ⟨rest, hl, hmr⟩) hm

/-- Behind an open reference the targets are compared, unless one of the references is marked. -/
theorem Fits.subtracted_opened {marked : Bool} {target : MarkTree}
    (h : Fits types (.opened base marked target) ty) (hr : types.Resolves ty (.reference base))
    (ht : types.isProper) (hp : ty.isProper) (ho : ∀ o ∈ other, Fits types o ty)
    (ih : Subtracted types base (here.push .deref) target.marks
      (fun rest => (other.bind target?).any (·.marks rest))
      (target.subtract (here.push .deref) (other.bind target?))) :
    Subtracted types ty here (MarkTree.opened base marked target).marks
      (fun rest => other.any (·.marks rest))
      ((MarkTree.opened base marked target).subtract here other) := by
  rw [subtract, any_isReferenceMarked_eq ho hr]
  by_cases hcell : other.any (·.marks [])
  · rw [if_pos (by rw [hcell, Bool.or_true])]
    exact .nothing fun rest hl _ => any_marks_of_nil ho hr hcell hl
  by_cases hmark : target.isMarked
  · rw [if_neg (by simp [hmark, hcell])]
    cases marked with
    | true =>
      refine .whole (.value hr rfl (fun rest hl => ?_) hcell)
      exact h.marks_of_marks_nil hr (by simp [marks]) hl
    | false =>
      rw [if_neg Bool.false_ne_true]
      simp only [any_marks_target? ho hr hcell] at ih
      exact .behind hr h.unfolds_of_opened (by simp [marks]) ih
  · rw [if_pos (by simp [hmark])]
    exact h.subtracted_of_not_isMarked ht hp hmark

/-- A structure is compared member by member, unless it is named as a whole. -/
theorem Fits.subtracted_record (h : Fits types (.record members) ty)
    (hr : types.Resolves ty (.record tys)) (ht : types.isProper) (hp : ty.isProper)
    (ho : ∀ o ∈ other, Fits types o ty)
    (ih : ∀ name t ty', members.lookup name = some t → tys.lookup name = some ty' →
      Subtracted types ty' (here.push (.member name)) t.marks
        (fun rest => (other.bind (·.member? name)).any (·.marks rest))
        (t.subtract (here.push (.member name)) (other.bind (·.member? name)))) :
    Subtracted types ty here (MarkTree.record members).marks (fun rest => other.any (·.marks rest))
      ((MarkTree.record members).subtract here other) := by
  obtain ⟨_, ⟨⟩, hnames, hfits⟩ := h.structure hr
  obtain ⟨-, hnodup, hall⟩ := Ty.isProper_record_iff.mp (hr.isProper ht hp)
  rw [subtract]
  by_cases hany : anyMarked members
  · rw [if_neg (by simp [hany])]
    split
    · next hwhole =>
      rw [Bool.and_eq_true, Bool.not_eq_true', List.all_eq_true] at hwhole
      obtain ⟨hother, hmarked⟩ := hwhole
      refine .whole (.record hr (fun name of hof => ?_) fun rest hl hm => ?_)
      · obtain ⟨t, hlook⟩ := exists_lookup_of_names hnames.symm hof
        simp only [marks_member hlook]
        exact ((hfits name t of hlook hof).isMarked_iff ht (hall _ (mem_of_lookup hof))).mp
          (hmarked _ (mem_of_lookup hlook))
      · exact Bool.eq_false_iff.mp hother ((any_isMarked_iff ho ht hp).mpr ⟨rest, hl, hm⟩)
    · rw [subtractMembers_eq_flatMap, ← List.flatMap_map (fun m : Name × MarkTree => (m.1,
        m.2.subtract (here.push (.member m.1)) (other.bind (·.member? m.1)))) (·.2)]
      refine .members hr (by rw [List.map_map]; exact hnames) fun name ds of hpart hof => ?_
      obtain ⟨⟨name, t⟩, hmem, ⟨⟩⟩ := List.mem_map.mp hpart
      have hlook := lookup_of_mem (hnames ▸ hnodup) hmem
      simpa only [marks_member hlook, any_marks_member? ho hr] using ih name t of hlook hof
  · rw [if_pos (by simp [hany])]
    exact h.subtracted_of_not_isMarked ht hp hany

theorem Fits.subtracted (h : Fits types t ty) (ht : types.isProper) (hp : ty.isProper)
    (here : MemoryPath) (ho : ∀ o ∈ other, Fits types o ty) :
    Subtracted types ty here t.marks (fun rest => other.any (·.marks rest))
      (t.subtract here other) := by
  induction h generalizing here other with
  | @leaf marked ty builtin hr hb =>
    have hany : other.any isMarked = other.any (·.marks []) := by
      rw [Bool.eq_iff_iff, any_isMarked_iff ho ht hp]
      simp only [isLocation_builtin_iff hr hb, exists_eq_left]
    rw [subtract, hany]
    split
    · next hwhole =>
      rw [Bool.and_eq_true, Bool.not_eq_true'] at hwhole
      obtain ⟨hm, ho⟩ := hwhole
      refine .whole (.value hr (Ty.isPlain_of_isBuiltin hb) (fun rest _ => ?_) (by simp [ho]))
      rw [marks, hm]
    · next hsub =>
      refine .nothing fun rest hl hm => ?_
      obtain rfl := (isLocation_builtin_iff hr hb).mp hl
      rw [marks] at hm
      simpa [hm] using hsub
  | @closed marked ty base hr =>
    rw [subtract, any_isReferenceMarked_eq ho hr]
    split
    · next hwhole =>
      rw [Bool.and_eq_true, Bool.not_eq_true'] at hwhole
      obtain ⟨hm, ho⟩ := hwhole
      refine .whole (.value hr rfl (fun rest _ => ?_) (by simp [ho]))
      rw [marks, hm]
    · next hsub =>
      refine .nothing fun rest hl hm => any_marks_of_nil ho hr ?_ hl
      rw [marks] at hm
      simpa [hm] using hsub
  | opened hr hu hf hall ih =>
    have hbase := by simpa [Ty.isProper] using hr.isProper ht hp
    exact (Fits.opened hr hu hf hall).subtracted_opened hr ht hp ho
      (ih hbase _ (fits_target? ho hr))
  | record hr hnames hf ih =>
    obtain ⟨-, -, hall⟩ := Ty.isProper_record_iff.mp (hr.isProper ht hp)
    refine (Fits.record hr hnames hf).subtracted_record hr ht hp ho ?_
    intro name t ty' hlook hty'
    exact ih name t ty' hlook hty' (hall _ (mem_of_lookup hty')) _ (fits_member? ho hr hty')

end MarkTree

end Reversible
