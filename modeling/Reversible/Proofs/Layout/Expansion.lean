import Reversible.Proofs.Shape.Unfolding

/-! # The layout of a type

A type is laid out by replacing names with their definitions, down to references and built-in types.
The relation says so without a bound and without a list of names passed. `Layout.ofTy` finds exactly
the slots that it relates, so a type has a layout if and only if it unfolds.
-/

namespace Reversible

namespace TypeTable

variable {types : TypeTable} {ty : Ty} {name : Name} {slot : Slot Ty} {l : Layout Ty}
  {members : List (Name × Ty)}

/-- Replacing the names in a type by their definitions, behind references excepted, gives a slot
whose leaves are the types left over. -/
inductive LaysOut (types : TypeTable) : Ty → Slot Ty → Prop where
  | plain {ty : Ty} : ty.isPlain → types.LaysOut ty (.leaf ty)
  | empty : types.LaysOut (.record []) (.inner .nil)
  | member {key : Name} {ty : Ty} {slot : Slot Ty} {rest : List (Name × Ty)} {l : Layout Ty} :
      types.LaysOut ty slot → types.LaysOut (.record rest) (.inner l) →
      types.LaysOut (.record ((key, ty) :: rest)) (.inner (.cons key slot l))
  | named {name : Name} {ty : Ty} {slot : Slot Ty} :
      types.get? name = some ty → types.LaysOut ty slot → types.LaysOut (.named name) slot

theorem unfolds_record_iff :
    types.Unfolds (.record members) ↔ ∀ m ∈ members, types.Unfolds m.2 := by
  constructor
  · intro h
    cases h with
    | plain hp => cases hp
    | record hall => exact hall
  · exact .record

theorem Mentions.of_rest {m : Name × Ty} (h : types.Mentions (.record members) name) :
    types.Mentions (.record (m :: members)) name := by
  cases h with
  | member hmem hm => exact .member (List.mem_cons_of_mem m hmem) hm

theorem LaysOut.unfolds (h : types.LaysOut ty slot) : types.Unfolds ty := by
  induction h with
  | plain hp => exact .plain hp
  | empty => exact .record (by simp)
  | member _ _ ih ihr =>
    exact .record (List.forall_mem_cons.mpr ⟨ih, unfolds_record_iff.mp ihr⟩)
  | named hn _ ih => exact .named hn ih

theorem exists_laysOut_record (h : ∀ m ∈ members, ∃ slot, types.LaysOut m.2 slot) :
    ∃ l, types.LaysOut (.record members) (.inner l) := by
  induction members with
  | nil => exact ⟨.nil, .empty⟩
  | cons m rest ih =>
    obtain ⟨⟨slot, hs⟩, hrest⟩ := List.forall_mem_cons.mp h
    obtain ⟨l, hl⟩ := ih hrest
    exact ⟨_, .member hs hl⟩

theorem Unfolds.exists_laysOut (h : types.Unfolds ty) : ∃ slot, types.LaysOut ty slot := by
  induction h with
  | plain hp => exact ⟨_, .plain hp⟩
  | record _ ih =>
    obtain ⟨l, hl⟩ := exists_laysOut_record ih
    exact ⟨_, hl⟩
  | named hn _ ih =>
    obtain ⟨slot, hs⟩ := ih
    exact ⟨slot, .named hn hs⟩

theorem LaysOut.isPlain (h : types.LaysOut ty slot) : ∀ leaf ∈ slot.values, leaf.isPlain := by
  induction h with
  | plain hp => simpa using hp
  | empty => simp [Layout.values]
  | member _ _ ih ihr =>
    intro leaf hleaf
    rw [Slot.values_inner, Layout.values_cons, List.mem_append] at hleaf
    exact hleaf.elim (ih leaf) (ihr leaf)
  | named _ _ ih => exact ih

theorem LaysOut.exists_find? (h : types.LaysOut (.record members) (.inner l))
    (hm : members.lookup name = some ty) :
    ∃ slot, l.find? name = some slot ∧ types.LaysOut ty slot := by
  induction members generalizing l with
  | nil => cases hm
  | cons m rest ih =>
    cases h with
    | @member key of slot _ l hs hl =>
      rw [NameMap.lookup_cons_ite] at hm
      rw [Layout.find?_cons]
      by_cases hk : name = key
      · rw [if_pos hk] at hm
        obtain rfl := Option.some.inj hm
        exact ⟨slot, if_pos hk.symm, hs⟩
      · rw [if_neg hk] at hm
        rw [if_neg (Ne.symm hk)]
        exact ih hl hm

end TypeTable

namespace Layout

variable {types : TypeTable} {ty : Ty} {name : Name} {slot : Slot Ty} {fuel : Nat}
  {within : List Name} {unfold : Name → Except TypeError (Slot Ty)}

mutual

theorem laysOut_of_expandWith
    (hu : ∀ name slot, unfold name = .ok slot → types.LaysOut (.named name) slot) :
    ∀ {ty : Ty} {slot : Slot Ty}, expandWith unfold ty = .ok slot → types.LaysOut ty slot
  | .record members, slot, h => by
    obtain ⟨l, hl, rfl⟩ := expandWith_record_eq_ok_iff.mp h
    exact laysOut_of_expandMembersWith hu hl
  | .named name, slot, h => hu name slot h
  | .int, slot, h | .comparison, slot, h | .unit, slot, h | .reference _, slot, h => by
    obtain rfl := Except.ok.inj h
    exact .plain rfl

theorem laysOut_of_expandMembersWith
    (hu : ∀ name slot, unfold name = .ok slot → types.LaysOut (.named name) slot) :
    ∀ {members : List (Name × Ty)} {l : Layout Ty},
      expandMembersWith unfold members = .ok l → types.LaysOut (.record members) (.inner l)
  | [], l, h => by
    obtain rfl := Except.ok.inj h
    exact .empty
  | m :: rest, l, h => by
    obtain ⟨slot, l, hs, hl, rfl⟩ := expandMembersWith_cons_eq_ok_iff.mp h
    exact .member (laysOut_of_expandWith hu hs) (laysOut_of_expandMembersWith hu hl)

end

theorem laysOut_of_unfoldName (h : unfoldName types fuel within name = .ok slot) :
    types.LaysOut (.named name) slot := by
  induction fuel generalizing within name slot with
  | zero => cases h
  | succ fuel ih =>
    rw [unfoldName] at h
    split at h
    · cases h
    · cases hn : types.get? name with
      | none => simp [hn] at h
      | some ty =>
        rw [hn] at h
        exact .named hn (laysOut_of_expandWith (fun _ _ h => ih h) h)

theorem expandWith_of_laysOut (h : types.LaysOut ty slot) (hr : types.Room fuel within)
    (hw : ∀ name ∈ within, ¬ types.Mentions ty name) :
    expandWith (unfoldName types fuel within) ty = .ok slot := by
  induction h generalizing fuel within with
  | @plain ty hp =>
    cases ty with
    | named _ | record _ => cases hp
    | _ => rfl
  | empty => rfl
  | member _ _ ih ihr =>
    have hs := ih hr fun name hmem hm => hw name hmem (.member List.mem_cons_self hm)
    obtain ⟨l, hl, heq⟩ :=
      expandWith_record_eq_ok_iff.mp (ihr hr fun name hmem hm => hw name hmem hm.of_rest)
    obtain rfl := Slot.inner.inj heq
    exact expandWith_record_eq_ok_iff.mpr
      ⟨_, expandMembersWith_cons_eq_ok_iff.mpr ⟨_, _, hs, hl, rfl⟩, rfl⟩
  | @named name ty _ hn hty ih =>
    have hwithin : name ∉ within := fun hmem => hw name hmem .here
    obtain ⟨rest, rfl, hrest⟩ := hr.push hn hwithin
    rw [expandWith, unfoldName, if_neg hwithin, hn]
    refine ih hrest fun other hmem hm => ?_
    rcases List.mem_cons.mp hmem with rfl | hmem
    · exact (TypeTable.Unfolds.named hn hty.unfolds).not_mentions .here hn hm
    · exact hw other hmem (.definition hn hm)

/-- The slots that the search finds are those that unfolding gives. -/
theorem ofTy_eq_ok_iff : ofTy types ty = .ok slot ↔ types.LaysOut ty slot := by
  constructor
  · exact laysOut_of_expandWith fun _ _ h => laysOut_of_unfoldName h
  · intro h
    exact expandWith_of_laysOut h (.start types) (by simp)

/-- One step into the definition of a name, where `next` lays out the names in it. -/
def unfoldStep (types : TypeTable) (next : List Name → Name → Except TypeError (Slot Ty))
    (within : List Name) (name : Name) : Except TypeError (Slot Ty) :=
  if name ∈ within then .error (.infinite name)
  else match types.get? name with
    | none => .error (.undefined name)
    | some ty => expandWith (next (name :: within)) ty

theorem advances_unfoldStep (types : TypeTable) : types.Advances (unfoldStep types) := by
  intro g g' within h
  funext name
  rw [unfoldStep, unfoldStep]
  split
  · rfl
  · next hw =>
    cases hn : types.get? name with
    | none => rfl
    | some ty => rw [h name (by simp [NameMap.contains, hn]) hw]

end Layout

theorem Environment.layout_eq_ok_iff {env : Environment} {l : Layout Ty} :
    env.layout = .ok l ↔ env.types.LaysOut (.record env.vars.entries) (.inner l) := by
  rw [← Layout.ofTy_eq_ok_iff, Layout.ofTy, Layout.expandWith_record_eq_ok_iff]
  simp [Environment.layout]

end Reversible
