import Reversible.Marks.Access
import Reversible.Proofs.Layout.Expansion
import Reversible.Proofs.Marks.Location

/-! # What a marking tree marks

A marking tree stands for a set of locations. Following steps to a place and marking it adds the
locations at or below the place and no others, whatever was marked before and however far the tree
was unfolded. A place counts as marked if a location at or below it is. A type has an unmarked tree
if and only if it unfolds, and the tree is read off its layout.
-/

namespace Reversible

def Ty.isBuiltin : Ty → Bool
  | .int => true
  | .comparison => true
  | .unit => true
  | _ => false

theorem Ty.isPlain_of_isBuiltin {ty : Ty} (h : ty.isBuiltin) : ty.isPlain := by
  cases ty with
  | int | comparison | unit => rfl
  | _ => cases h

namespace MarkTree

variable {types : TypeTable} {t target : MarkTree} {ty ty' base : Ty} {marked : Bool} {name : Name}
  {steps rest : List MemorySegment} {members : List (Name × MarkTree)} {tys : List (Name × Ty)}

def marks : MarkTree → List MemorySegment → Bool
  | leaf marked, _ => marked
  | closed _ marked, _ => marked
  | opened _ _ target, .deref :: rest => target.marks rest
  | opened _ marked _, _ => marked
  | record members, .member name :: rest =>
    match members.lookup name with
    | some t => t.marks rest
    | none => false
  | record _, _ => false
termination_by structural _ steps => steps

/-- A tree of marks on a value of a type. If a reference was marked when it was opened, all that
lies behind it is marked. -/
inductive Fits (types : TypeTable) : MarkTree → Ty → Prop where
  | leaf {marked : Bool} {ty builtin : Ty} :
      types.Resolves ty builtin → builtin.isBuiltin → Fits types (leaf marked) ty
  | closed {marked : Bool} {ty base : Ty} :
      types.Resolves ty (.reference base) → Fits types (closed base marked) ty
  | opened {marked : Bool} {ty base : Ty} {target : MarkTree} :
      types.Resolves ty (.reference base) → types.Unfolds base → Fits types target base →
      (marked → ∀ rest, types.IsLocation base rest → target.marks rest) →
      Fits types (opened base marked target) ty
  | record {ty : Ty} {members : List (Name × MarkTree)} {tys : List (Name × Ty)} :
      types.Resolves ty (.record tys) → members.map (·.1) = tys.map (·.1) →
      (∀ name t ty', members.lookup name = some t → tys.lookup name = some ty' →
        Fits types t ty') →
      Fits types (record members) ty

theorem marks_member (h : members.lookup name = some t) :
    (record members).marks (.member name :: rest) = t.marks rest := by
  rw [marks, h]

/-! ### Trees by type -/

theorem isLocation_builtin_iff (h : types.Resolves ty ty') (hb : ty'.isBuiltin) :
    types.IsLocation ty steps ↔ steps = [] := by
  constructor
  · rintro ⟨_, _, hl, -⟩
    cases hl with
    | here => rfl
    | deref h' _ _ =>
      obtain rfl := h.unique h'
      cases hb
    | member h' _ _ =>
      obtain rfl := h.unique h'
      cases hb
  · rintro rfl
    exact TypeTable.isLocation_nil h (Ty.isPlain_of_isBuiltin hb)

theorem Fits.reference (h : Fits types t ty) (hr : types.Resolves ty (.reference base)) :
    (∃ marked, t = .closed base marked) ∨ ∃ marked target, t = .opened base marked target ∧
      types.Unfolds base ∧ Fits types target base ∧
      (marked → ∀ rest, types.IsLocation base rest → target.marks rest) := by
  cases h with
  | leaf hr' hb =>
    obtain rfl := hr.unique hr'
    cases hb
  | closed hr' =>
    obtain ⟨⟩ := hr.unique hr'
    exact .inl ⟨_, rfl⟩
  | opened hr' hu ht hm =>
    obtain ⟨⟩ := hr.unique hr'
    exact .inr ⟨_, _, rfl, hu, ht, hm⟩
  | record hr' => cases hr.unique hr'

theorem Fits.structure (h : Fits types t ty) (hr : types.Resolves ty (.record tys)) :
    ∃ members, t = .record members ∧ members.map (·.1) = tys.map (·.1) ∧
      ∀ name t ty', members.lookup name = some t → tys.lookup name = some ty' →
        Fits types t ty' := by
  cases h with
  | leaf hr' hb =>
    obtain rfl := hr.unique hr'
    cases hb
  | closed hr' => cases hr.unique hr'
  | opened hr' => cases hr.unique hr'
  | record hr' hnames hall =>
    obtain ⟨⟩ := hr.unique hr'
    exact ⟨_, rfl, hnames, hall⟩

theorem Fits.unfolds_of_opened (h : Fits types (.opened base marked target) ty) :
    types.Unfolds base := by
  cases h with
  | opened _ hu _ _ => exact hu

/-! ### Marked as a whole, or in part -/

theorem anyMarked_iff : anyMarked members ↔ ∃ m ∈ members, m.2.isMarked := by
  induction members with
  | nil => simp [anyMarked]
  | cons m rest ih =>
    rw [anyMarked, Bool.or_eq_true, ih]
    simp

theorem setMarkedMembers_eq_map :
    setMarkedMembers members = members.map fun m => (m.1, m.2.setMarked) := by
  induction members with
  | nil => rfl
  | cons m rest ih => rw [setMarkedMembers, ih, List.map_cons]

/-- A value counts as marked if some location in it or behind it is. -/
theorem Fits.isMarked_iff (h : Fits types t ty) (ht : types.isProper) (hp : ty.isProper) :
    t.isMarked ↔ ∃ rest, types.IsLocation ty rest ∧ t.marks rest := by
  induction h with
  | leaf hr hb =>
    simp only [isLocation_builtin_iff hr hb, isMarked, marks, exists_eq_left]
  | closed hr =>
    constructor
    · intro hm
      exact ⟨[], TypeTable.isLocation_nil hr rfl, hm⟩
    · rintro ⟨rest, -, hm⟩
      simpa [marks, isMarked] using hm
  | @opened marked ty base target hr hu _ hall ih =>
    have hbase : base.isProper := by simpa [Ty.isProper] using hr.isProper ht hp
    rw [isMarked, ih hbase]
    constructor
    · rintro ⟨rest, hl, hm⟩
      exact ⟨.deref :: rest, hl.deref hr hu, hm⟩
    · rintro ⟨steps, hl, hm⟩
      rcases (TypeTable.isLocation_reference_iff hr).mp hl with rfl | ⟨rest, rfl, -, hl⟩
      · obtain ⟨rest, hl⟩ := TypeTable.exists_isLocation ht hu hbase
        exact ⟨rest, hl, hall hm rest hl⟩
      · exact ⟨rest, hl, hm⟩
  | @record ty members tys hr hnames _ ih =>
    obtain ⟨-, hnodup, hall⟩ := Ty.isProper_record_iff.mp (hr.isProper ht hp)
    rw [isMarked, anyMarked_iff]
    constructor
    · rintro ⟨⟨name, t⟩, hmem, hm⟩
      have hlook := lookup_of_mem (hnames ▸ hnodup) hmem
      obtain ⟨ty', hty'⟩ := exists_lookup_of_names hnames hlook
      obtain ⟨rest, hl, hm⟩ := (ih name t ty' hlook hty' (hall _ (mem_of_lookup hty'))).mp hm
      exact ⟨.member name :: rest, hl.member hr hty', by rwa [marks_member hlook]⟩
    · rintro ⟨steps, hl, hm⟩
      obtain ⟨name, ty', rest, rfl, hty', hl⟩ := (TypeTable.isLocation_record_iff hr).mp hl
      obtain ⟨t, hlook⟩ := exists_lookup_of_names hnames.symm hty'
      rw [marks_member hlook] at hm
      have hmt := (ih name t ty' hlook hty' (hall _ (mem_of_lookup hty'))).mpr ⟨rest, hl, hm⟩
      exact ⟨(name, t), mem_of_lookup hlook, hmt⟩

theorem lookup_map_setMarked :
    (setMarkedMembers members).lookup name = (members.lookup name).map setMarked := by
  induction members with
  | nil => rfl
  | cons m rest ih =>
    rw [setMarkedMembers, NameMap.lookup_cons_ite, NameMap.lookup_cons_ite, ih]
    split <;> rfl

theorem Fits.setMarked (h : Fits types t ty) : Fits types t.setMarked ty := by
  induction h with
  | leaf hr hb => exact .leaf hr hb
  | closed hr => exact .closed hr
  | opened hr _ _ _ _ => exact .closed hr
  | record hr hnames _ ih =>
    refine .record hr ?_ fun name t ty' hlook hty' => ?_
    · rw [setMarkedMembers_eq_map, List.map_map]
      exact hnames
    · rw [lookup_map_setMarked, Option.map_eq_some_iff] at hlook
      obtain ⟨t', hlook, rfl⟩ := hlook
      exact ih name t' ty' hlook hty'

theorem Fits.marks_setMarked (h : Fits types t ty) (hl : types.IsLocation ty rest) :
    t.setMarked.marks rest := by
  induction h generalizing rest with
  | leaf _ _ => rw [MarkTree.setMarked, marks]
  | closed _ => rw [MarkTree.setMarked, marks]
  | opened _ _ _ _ _ => rw [MarkTree.setMarked, marks]
  | record hr hnames _ ih =>
    obtain ⟨name, ty', rest, rfl, hty', hl⟩ := (TypeTable.isLocation_record_iff hr).mp hl
    obtain ⟨t, hlook⟩ := exists_lookup_of_names hnames.symm hty'
    rw [MarkTree.setMarked, marks_member (by rw [lookup_map_setMarked, hlook, Option.map_some])]
    exact ih name t ty' hlook hty' hl

/-! ### Unmarked trees -/

theorem Fits.of_resolves (h : Fits types t ty') (hr : types.Resolves ty ty') : Fits types t ty := by
  cases h with
  | leaf h hb => exact .leaf (hr.trans h) hb
  | closed h => exact .closed (hr.trans h)
  | opened h hu ht hm => exact .opened (hr.trans h) hu ht hm
  | record h hnames hall => exact .record (hr.trans h) hnames hall

/-- A tree without marks, of a type that unfolds. -/
structure Blank (types : TypeTable) (t : MarkTree) (ty : Ty) : Prop where
  unfolds : types.Unfolds ty
  fits : Fits types t ty
  marks_eq : ∀ steps, t.marks steps = false

theorem Blank.plain (hf : Fits types t ty) (hp : ty.isPlain) (hm : ∀ steps, t.marks steps = false) :
    Blank types t ty :=
  ⟨.plain hp, hf, hm⟩

theorem Blank.record (hnames : members.map (·.1) = tys.map (·.1))
    (hall : ∀ name t ty', members.lookup name = some t → tys.lookup name = some ty' →
      Blank types t ty') (hu : ∀ m ∈ tys, types.Unfolds m.2) :
    Blank types (.record members) (.record tys) := by
  have hfits := fun name t ty' h h' => (hall name t ty' h h').fits
  refine ⟨.record hu, .record (.refl (by simp)) hnames hfits, fun steps => ?_⟩
  rcases steps with - | ⟨- | name, rest⟩
  · rfl
  · rfl
  · rw [marks]
    split
    · next t ht =>
      obtain ⟨ty', hty'⟩ := exists_lookup_of_names hnames ht
      exact (hall name t ty' ht hty').marks_eq rest
    · rfl

section Expansion

variable {unfold : Name → Except TypeError MarkTree}

theorem unmarkedWith_record_eq_ok_iff : unmarkedWith unfold (.record tys) = .ok t ↔
    ∃ members, unmarkedMembersWith unfold tys = .ok members ∧ t = .record members := by
  rw [unmarkedWith]
  cases unmarkedMembersWith unfold tys with
  | error e => simp [bind, Except.bind]
  | ok members => simp [bind, Except.bind, pure, Except.pure, eq_comm]

theorem unmarkedMembersWith_cons_eq_ok_iff {m : Name × Ty} :
    unmarkedMembersWith unfold (m :: tys) = .ok members ↔
      ∃ t rest, unmarkedWith unfold m.2 = .ok t ∧ unmarkedMembersWith unfold tys = .ok rest ∧
        members = (m.1, t) :: rest := by
  rw [unmarkedMembersWith]
  cases unmarkedWith unfold m.2 with
  | error e => simp [bind, Except.bind]
  | ok t =>
    cases unmarkedMembersWith unfold tys with
    | error e => simp [bind, Except.bind]
    | ok rest => simp [bind, Except.bind, pure, Except.pure, eq_comm]

mutual

theorem blank_of_unmarkedWith
    (hu : ∀ name t, unfold name = .ok t → Blank types t (.named name)) :
    ∀ {ty : Ty} {t : MarkTree}, unmarkedWith unfold ty = .ok t → Blank types t ty
  | .record tys, t, h => by
    obtain ⟨members, hm, rfl⟩ := unmarkedWith_record_eq_ok_iff.mp h
    obtain ⟨hnames, hall, hus⟩ := blank_of_unmarkedMembersWith hu hm
    exact .record hnames hall hus
  | .named name, t, h => hu name t h
  | .reference base, t, h => by
    obtain rfl := Except.ok.inj h
    exact .plain (.closed (.refl (by simp))) rfl fun _ => by rw [pointingTo, marks]
  | .int, t, h | .comparison, t, h | .unit, t, h => by
    obtain rfl := Except.ok.inj h
    exact .plain (.leaf (.refl (by simp)) rfl) rfl fun _ => by rw [marks]

theorem blank_of_unmarkedMembersWith
    (hu : ∀ name t, unfold name = .ok t → Blank types t (.named name)) :
    ∀ {tys : List (Name × Ty)} {members : List (Name × MarkTree)},
      unmarkedMembersWith unfold tys = .ok members → members.map (·.1) = tys.map (·.1) ∧
        (∀ name t ty', members.lookup name = some t → tys.lookup name = some ty' →
          Blank types t ty') ∧ ∀ m ∈ tys, types.Unfolds m.2
  | [], members, h => by
    obtain rfl := Except.ok.inj h
    simp
  | (key, ty) :: rest, members, h => by
    obtain ⟨t, ms, ht, hr, rfl⟩ := unmarkedMembersWith_cons_eq_ok_iff.mp h
    have hb := blank_of_unmarkedWith hu ht
    obtain ⟨hnames, hall, hus⟩ := blank_of_unmarkedMembersWith hu hr
    refine ⟨by simp [hnames], fun name t' ty' h h' => ?_,
      List.forall_mem_cons.mpr ⟨hb.unfolds, hus⟩⟩
    rw [NameMap.lookup_cons_ite] at h h'
    split at h
    · next hk =>
      rw [if_pos hk] at h'
      obtain rfl := Option.some.inj h
      obtain rfl := Option.some.inj h'
      exact hb
    · next hk =>
      rw [if_neg hk] at h'
      exact hall name t' ty' h h'

end

end Expansion

theorem blank_of_unfoldName {fuel : Nat} {within : List Name}
    (h : unfoldName types fuel within name = .ok t) : Blank types t (.named name) := by
  induction fuel generalizing within name t with
  | zero => cases h
  | succ fuel ih =>
    rw [unfoldName] at h
    split at h
    · cases h
    · cases hr : types.resolve (.named name) with
      | error e => simp [hr, bind, Except.bind] at h
      | ok ty =>
        rw [hr] at h
        have hres := TypeTable.resolves_of_resolve hr
        have hb := blank_of_unmarkedWith (fun _ _ h => ih h) h
        exact ⟨hres.unfolds_iff.mpr hb.unfolds, hb.fits.of_resolves hres, hb.marks_eq⟩

theorem blank_of_unmarked (h : unmarked types ty = .ok t) : Blank types t ty :=
  blank_of_unmarkedWith (fun _ _ h => blank_of_unfoldName h) h

/-- The unmarked tree at a leaf of a layout. -/
def ofLeaf : Ty → MarkTree
  | .reference base => pointingTo base
  | _ => leaf false

/-- The unmarked trees at the slots of a layout, under the same names and in the same order. -/
def ofLayout : Layout Ty → List (Name × MarkTree)
  | .nil => []
  | .leaf key ty rest => (key, ofLeaf ty) :: ofLayout rest
  | .node key ms rest => (key, record (ofLayout ms)) :: ofLayout rest

def ofSlot : Slot Ty → MarkTree
  | .leaf ty => ofLeaf ty
  | .inner ms => record (ofLayout ms)

theorem ofLayout_cons (key : Name) (slot : Slot Ty) (rest : Layout Ty) :
    ofLayout (.cons key slot rest) = (key, ofSlot slot) :: ofLayout rest := by
  cases slot <;> rfl

theorem unmarkedWith_of_resolved (hu : types.Unfolds ty)
    (ih : ∀ {ty' : Ty} {fuel : Nat} {within : List Name}, types.Resolves ty ty' →
      types.Room fuel within → (∀ name ∈ within, ¬ types.Mentions ty' name) →
      unmarkedWith (unfoldName types fuel within) ty' = .ok t)
    {fuel : Nat} {within : List Name} (hr : types.Room fuel within)
    (hw : ∀ name ∈ within, ¬ types.Mentions ty name) :
    unmarkedWith (unfoldName types fuel within) ty = .ok t := by
  cases hu with
  | plain hp =>
    refine ih (.refl ?_) hr hw
    rintro name rfl
    cases hp
  | record _ => exact ih (.refl (by simp)) hr hw
  | @named name ty hn hty =>
    have hwithin : name ∉ within := fun hmem => hw name hmem .here
    obtain ⟨rest, rfl, hrest⟩ := hr.push hn hwithin
    obtain ⟨ty', hty'⟩ := (TypeTable.Unfolds.named hn hty).exists_resolve
    have hres := TypeTable.resolves_of_resolve hty'
    rw [unmarkedWith, unfoldName, if_neg hwithin, hty']
    refine ih hres hrest ?_
    rintro other hmem hm
    rcases List.mem_cons.mp hmem with rfl | hmem
    · cases hres with
      | refl hne => exact absurd rfl (hne _)
      | step hn' hres =>
        exact (TypeTable.Unfolds.named hn hty).not_mentions .here hn' (hres.mentions hm)
    · exact hw other hmem (hres.mentions hm)

theorem unmarkedWith_of_laysOut {slot : Slot Ty} (hs : types.LaysOut ty slot) {fuel : Nat}
    {within : List Name} (h : types.Resolves ty ty') (hr : types.Room fuel within)
    (hw : ∀ name ∈ within, ¬ types.Mentions ty' name) :
    unmarkedWith (unfoldName types fuel within) ty' = .ok (ofSlot slot) := by
  -- the search goes from a name to the end of its chain at once, so the names on the way are
  -- passed by `h` and only the end of the chain is expanded
  induction hs generalizing ty' fuel within with
  | @plain ty hp =>
    cases h with
    | refl _ =>
      cases ty with
      | named _ | record _ => cases hp
      | _ => rfl
    | step _ _ => cases hp
  | empty =>
    cases h with
    | refl _ => rfl
  | @member key ty slot rest l hs hl ih ihr =>
    cases h with
    | refl _ =>
      have hfirst := unmarkedWith_of_resolved hs.unfolds ih hr
        fun name hmem hm => hw name hmem (.member List.mem_cons_self hm)
      obtain ⟨members, hrest, heq⟩ := unmarkedWith_record_eq_ok_iff.mp
        (ihr (.refl (by simp)) hr fun name hmem hm => hw name hmem hm.of_rest)
      obtain rfl := MarkTree.record.inj heq
      rw [ofSlot, ofLayout_cons]
      exact unmarkedWith_record_eq_ok_iff.mpr
        ⟨_, unmarkedMembersWith_cons_eq_ok_iff.mpr ⟨_, _, hfirst, hrest, rfl⟩, rfl⟩
  | named hn _ ih =>
    cases h with
    | refl hne => exact absurd rfl (hne _)
    | step hn' h =>
      obtain rfl := Option.some.inj (hn.symm.trans hn')
      exact ih h hr hw

/-- The unmarked tree of a type is read off its layout. -/
theorem unmarked_of_laysOut {slot : Slot Ty} (h : types.LaysOut ty slot) :
    unmarked types ty = .ok (ofSlot slot) :=
  unmarkedWith_of_resolved h.unfolds (unmarkedWith_of_laysOut h) (.start types) (by simp)

theorem exists_unmarked_iff : (∃ t, unmarked types ty = .ok t) ↔ types.Unfolds ty := by
  constructor
  · rintro ⟨t, ht⟩
    exact (blank_of_unmarked ht).unfolds
  · intro hu
    obtain ⟨slot, hs⟩ := hu.exists_laysOut
    exact ⟨ofSlot slot, unmarked_of_laysOut hs⟩

end MarkTree

end Reversible
