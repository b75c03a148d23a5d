import Reversible.Proofs.Marks.Tree

/-! # Marking the place that steps lead to

Whether steps can be followed depends on the types alone. If they can, the locations at or below the
place they lead to are marked in addition to those marked before. If they cannot, the marks stay as
they are.
-/

namespace Reversible

namespace MarkTree

variable {types : TypeTable} {t t' target target' found : MarkTree} {ty ty' base : Ty}
  {marked : Bool} {name : Name} {rest : List MemorySegment}
  {members members' : List (Name × MarkTree)} {tys : List (Name × Ty)}
  {result : Except PlaceError MarkTree}

/-- What becomes of a tree when the place that steps lead to is marked, and what is found there. -/
inductive Followed (types : TypeTable) (ty : Ty) (steps : List MemorySegment) (t : MarkTree) :
    MarkTree → Except PlaceError MarkTree → Prop where
  | found {t' found : MarkTree} {ty' : Ty} : Fits types t' ty → types.Leads ty steps ty' →
      Fits types found ty' →
      (∀ rest, types.IsLocation ty' rest → found.marks rest = t.marks (steps ++ rest)) →
      (∀ rest, types.IsLocation ty rest → (t'.marks rest ↔ t.marks rest ∨ steps <+: rest)) →
      Followed types ty steps t t' (.ok found)
  | failed {t' : MarkTree} {e : PlaceError} : Fits types t' ty →
      (∀ ty', ¬ types.Leads ty steps ty') →
      (∀ rest, types.IsLocation ty rest → t'.marks rest = t.marks rest) →
      Followed types ty steps t t' (.error e)

theorem Followed.here (h : Fits types t ty) : Followed types ty [] t t.setMarked (.ok t) := by
  refine .found h.setMarked .here h (fun _ _ => rfl) fun rest hl => ?_
  simp [h.marks_setMarked hl]

theorem Followed.deref (hr : types.Resolves ty (.reference base)) (hu : types.Unfolds base)
    (hcell : t.marks [] = marked)
    (hbehind : ∀ rest, types.IsLocation base rest → t.marks (.deref :: rest) = target.marks rest)
    (hall : marked → ∀ rest, types.IsLocation base rest → target.marks rest)
    (h : Followed types base rest target target' result) :
    Followed types ty (.deref :: rest) t (.opened base marked target') result := by
  cases h with
  | found hf hl hff hfm hm =>
    refine .found (.opened hr hu hf fun hmk r hlr => (hm r hlr).mpr (.inl (hall hmk r hlr)))
      (.deref hr hu hl) hff (fun r hlr => ?_) fun r hlr => ?_
    · rw [hfm r hlr, List.cons_append, hbehind]
      exact (TypeTable.isLocation_append_iff hl).mpr hlr
    · rcases (TypeTable.isLocation_reference_iff hr).mp hlr with rfl | ⟨r, rfl, -, hlr⟩
      · simp [marks, hcell]
      · rw [marks, hm r hlr, hbehind r hlr, List.cons_prefix_cons]
        simp
  | failed hf hno hm =>
    refine .failed (.opened hr hu hf fun hmk r hlr => hm r hlr ▸ hall hmk r hlr) ?_ fun r hlr => ?_
    · intro ty' hl
      exact hno ty' ((TypeTable.leads_deref_iff hr).mp hl).2
    · rcases (TypeTable.isLocation_reference_iff hr).mp hlr with rfl | ⟨r, rfl, -, hlr⟩
      · simp [marks, hcell]
      · rw [marks, hm r hlr, hbehind r hlr]

theorem onMember_eq_none {ρ : Type} (f : MarkTree → MarkTree × ρ)
    (h : members.lookup name = none) : onMember name f members = none := by
  induction members with
  | nil => rfl
  | cons m rest ih =>
    rw [NameMap.lookup_cons_ite] at h
    split at h
    · cases h
    · next hne => rw [onMember, if_neg (Ne.symm hne), ih h, Option.map_none]

theorem exists_onMember {ρ : Type} (f : MarkTree → MarkTree × ρ)
    (h : members.lookup name = some t) : ∃ members', onMember name f members =
        some (members', (f t).2) ∧ members'.map (·.1) = members.map (·.1) ∧
      ∀ other, members'.lookup other =
        if other = name then some (f t).1 else members.lookup other := by
  induction members with
  | nil => cases h
  | cons m rest ih =>
    obtain ⟨key, u⟩ := m
    rw [NameMap.lookup_cons_ite] at h
    split at h
    · next heq =>
      obtain rfl := Option.some.inj h
      refine ⟨(key, (f u).1) :: rest, by rw [onMember, if_pos heq.symm], rfl, fun other => ?_⟩
      rw [NameMap.lookup_cons_ite, NameMap.lookup_cons_ite, heq]
      split <;> rfl
    · next hne =>
      obtain ⟨rest', hm, hnames, hlook⟩ := ih h
      refine ⟨(key, u) :: rest', ?_, by simp [hnames], fun other => ?_⟩
      · rw [onMember, if_neg (Ne.symm hne), hm, Option.map_some]
      · rw [NameMap.lookup_cons_ite, NameMap.lookup_cons_ite, hlook]
        by_cases hk : other = key
        · rw [if_pos hk, if_pos hk, if_neg fun ho => hne (ho.symm.trans hk)]
        · rw [if_neg hk, if_neg hk]

theorem Followed.member (hf : Fits types (.record members) ty)
    (hr : types.Resolves ty (.record tys)) (hty : tys.lookup name = some ty')
    (hlook : members.lookup name = some t) (hnames : members'.map (·.1) = members.map (·.1))
    (hlook' : ∀ other, members'.lookup other =
      if other = name then some t' else members.lookup other)
    (h : Followed types ty' rest t t' result) :
    Followed types ty (.member name :: rest) (.record members) (.record members') result := by
  obtain ⟨_, ⟨⟩, hnames₀, hfits⟩ := hf.structure hr
  have hfits' : Fits types t' ty' → Fits types (.record members') ty := fun ht' => by
    refine .record hr (hnames.trans hnames₀) fun other u ty'' hu hty'' => ?_
    rw [hlook'] at hu
    split at hu
    · next heq =>
      obtain rfl := Option.some.inj hu
      obtain rfl := Option.some.inj (hty.symm.trans (heq ▸ hty''))
      exact ht'
    · exact hfits other u ty'' hu hty''
  -- the marks of other members stay
  have hother : ∀ other r, other ≠ name → (record members').marks (.member other :: r) =
      (record members).marks (.member other :: r) := fun other r hne => by
    rw [marks, marks, hlook', if_neg hne]
  have hself : members'.lookup name = some t' := (hlook' name).trans (if_pos rfl)
  cases h with
  | found hft hl hff hfm hm =>
    refine .found (hfits' hft) (.member hr hty hl) hff (fun r hlr => ?_) fun r hlr => ?_
    · rw [hfm r hlr, List.cons_append, marks_member hlook]
    · obtain ⟨other, ty'', r, rfl, hty'', hlr⟩ := (TypeTable.isLocation_record_iff hr).mp hlr
      by_cases hne : other = name
      · subst hne
        obtain rfl := Option.some.inj (hty.symm.trans hty'')
        rw [marks_member hself, marks_member hlook, hm r hlr, List.cons_prefix_cons]
        simp
      · rw [hother other r hne, List.cons_prefix_cons]
        simp [Ne.symm hne]
  | failed hft hno hm =>
    refine .failed (hfits' hft) (fun ty'' hl => ?_) fun r hlr => ?_
    · obtain ⟨of, hof, hl⟩ := (TypeTable.leads_member_iff hr).mp hl
      obtain rfl := Option.some.inj (hty.symm.trans hof)
      exact hno ty'' hl
    · obtain ⟨other, ty'', r, rfl, hty'', hlr⟩ := (TypeTable.isLocation_record_iff hr).mp hlr
      by_cases hne : other = name
      · subst hne
        obtain rfl := Option.some.inj (hty.symm.trans hty'')
        rw [marks_member hself, marks_member hlook, hm r hlr]
      · exact hother other r hne

theorem Followed.refused {e : PlaceError} {steps : List MemorySegment} (h : Fits types t ty)
    (hno : ∀ ty', ¬ types.Leads ty steps ty') : Followed types ty steps t t (.error e) :=
  .failed h hno fun _ _ => rfl

theorem followed_follow (h : Fits types t ty) (here : MemoryPath) (steps : List MemorySegment) :
    Followed types ty steps t (follow types setMarked here steps t).1
      (follow types setMarked here steps t).2 := by
  induction steps generalizing t ty here with
  | nil => exact .here h
  | cons step rest ih =>
    cases step with
    | deref =>
      cases h with
      | leaf hr hb =>
        refine .refused (.leaf hr hb) fun ty' hl => ?_
        cases hl with
        | deref hr' =>
          obtain rfl := hr.unique hr'
          cases hb
      | record hr hnames hall =>
        refine .refused (.record hr hnames hall) fun ty' hl => ?_
        cases hl with
        | deref hr' => cases hr.unique hr'
      | @closed marked ty base hr =>
        rw [follow]
        cases hb : unmarked types base with
        | error e =>
          refine .refused (.closed hr) fun ty' hl => ?_
          obtain ⟨t, ht⟩ := exists_unmarked_iff.mpr ((TypeTable.leads_deref_iff hr).mp hl).1
          cases hb.symm.trans ht
        | ok target =>
          obtain ⟨hu, hft, hmarks⟩ := blank_of_unmarked hb
          cases marked with
          | false =>
            exact .deref hr hu (by rw [marks]) (fun r _ => by rw [marks, hmarks]) nofun (ih hft _)
          | true =>
            have hall : ∀ r, types.IsLocation base r → target.setMarked.marks r :=
              fun _ => hft.marks_setMarked
            exact .deref hr hu (by rw [marks]) (fun r hl => by rw [marks, hall r hl])
              (fun _ => hall) (ih hft.setMarked _)
      | opened hr hu ht hm =>
        exact .deref hr hu (by simp [marks]) (fun r _ => by rw [marks]) hm (ih ht _)
    | member name =>
      cases h with
      | leaf hr hb =>
        refine .refused (.leaf hr hb) fun ty' hl => ?_
        cases hl with
        | member hr' =>
          obtain rfl := hr.unique hr'
          cases hb
      | closed hr =>
        refine .refused (.closed hr) fun ty' hl => ?_
        cases hl with
        | member hr' => cases hr.unique hr'
      | opened hr hu ht hm =>
        refine .refused (.opened hr hu ht hm) fun ty' hl => ?_
        cases hl with
        | member hr' => cases hr.unique hr'
      | @record ty members tys hr hnames hall =>
        rw [follow]
        cases hlook : members.lookup name with
        | none =>
          rw [onMember_eq_none _ hlook]
          refine .refused (.record hr hnames hall) fun ty' hl => ?_
          obtain ⟨of, hof, -⟩ := (TypeTable.leads_member_iff hr).mp hl
          obtain ⟨t, ht⟩ := exists_lookup_of_names hnames.symm hof
          cases hlook.symm.trans ht
        | some t =>
          obtain ⟨ty', hty'⟩ := exists_lookup_of_names hnames hlook
          obtain ⟨members', hm, hnames', hlook'⟩ :=
            exists_onMember (follow types setMarked (here.push (.member name)) rest) hlook
          rw [hm]
          exact .member (.record hr hnames hall) hr hty' hlook hnames' hlook'
            (ih (hall name t ty' hlook hty') _)

end MarkTree

end Reversible
