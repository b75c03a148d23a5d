import Mathlib.Data.List.Infix
import Reversible.Proofs.Shape.Unfolding

/-! # Locations in memory

A memory path goes through the types: a step through a reference needs a reference whose target
unfolds, a step to a member a structure that has it. A location is where a path comes to a value
without members, a reference among them. A path covers the locations at or below it. A value whose
type refers to itself has infinitely many locations.
-/

namespace Reversible

namespace Ty

mutual

/-- Each structure in a type has members, and they have different names. -/
def isProper : Ty → Bool
  | .reference target => target.isProper
  | .record members =>
    !members.isEmpty && decide (members.map (·.1)).Nodup && areProper members
  | _ => true

def areProper : List (Name × Ty) → Bool
  | [] => true
  | (_, ty) :: rest => ty.isProper && areProper rest

end

theorem areProper_iff {members : List (Name × Ty)} :
    areProper members ↔ ∀ m ∈ members, m.2.isProper := by
  induction members with
  | nil => simp [areProper]
  | cons m rest ih =>
    rw [areProper, Bool.and_eq_true, ih, List.forall_mem_cons]

theorem isProper_record_iff {members : List (Name × Ty)} : (record members).isProper ↔
    members ≠ [] ∧ (members.map (·.1)).Nodup ∧ ∀ m ∈ members, m.2.isProper := by
  rw [isProper, Bool.and_eq_true, Bool.and_eq_true, areProper_iff, decide_eq_true_iff,
    Bool.not_eq_true', List.isEmpty_eq_false_iff, and_assoc]

end Ty

namespace TypeTable

variable {types : TypeTable} {ty ty' base : Ty} {members : List (Name × Ty)} {name : Name}
  {steps rest : List MemorySegment}

def isProper (types : TypeTable) : Bool := types.entries.all (·.2.isProper)

theorem Resolves.isProper (h : types.Resolves ty ty') (ht : types.isProper) (hp : ty.isProper) :
    ty'.isProper := by
  induction h with
  | refl _ => exact hp
  | step hn _ ih => exact ih (List.all_eq_true.mp ht _ (mem_of_lookup hn))

/-- Steps from a value of one type come to a value of another. -/
inductive Leads (types : TypeTable) : Ty → List MemorySegment → Ty → Prop where
  | here {ty : Ty} : types.Leads ty [] ty
  | deref {ty base ty' : Ty} {rest : List MemorySegment} :
      types.Resolves ty (.reference base) → types.Unfolds base → types.Leads base rest ty' →
      types.Leads ty (.deref :: rest) ty'
  | member {ty of ty' : Ty} {members : List (Name × Ty)} {name : Name}
      {rest : List MemorySegment} :
      types.Resolves ty (.record members) → members.lookup name = some of →
      types.Leads of rest ty' → types.Leads ty (.member name :: rest) ty'

/-- Steps come to a value that has no members. -/
def IsLocation (types : TypeTable) (ty : Ty) (steps : List MemorySegment) : Prop :=
  ∃ ty' plain, types.Leads ty steps ty' ∧ types.Resolves ty' plain ∧ plain.isPlain

theorem leads_deref_iff (h : types.Resolves ty (.reference base)) :
    types.Leads ty (.deref :: rest) ty' ↔ types.Unfolds base ∧ types.Leads base rest ty' := by
  constructor
  · intro hl
    cases hl with
    | deref h' hu hl =>
      obtain ⟨⟩ := h.unique h'
      exact ⟨hu, hl⟩
  · rintro ⟨hu, hl⟩
    exact .deref h hu hl

theorem leads_member_iff (h : types.Resolves ty (.record members)) :
    types.Leads ty (.member name :: rest) ty' ↔
      ∃ of, members.lookup name = some of ∧ types.Leads of rest ty' := by
  constructor
  · intro hl
    cases hl with
    | member h' hof hl =>
      obtain ⟨⟩ := h.unique h'
      exact ⟨_, hof, hl⟩
  · rintro ⟨of, hof, hl⟩
    exact .member h hof hl

theorem Leads.append {ty'' : Ty} (h : types.Leads ty steps ty') (h' : types.Leads ty' rest ty'') :
    types.Leads ty (steps ++ rest) ty'' := by
  induction h with
  | here => exact h'
  | deref hr hu _ ih => exact .deref hr hu (ih h')
  | member hr hof _ ih => exact .member hr hof (ih h')

theorem Leads.of_append {ty'' : Ty} (h : types.Leads ty steps ty')
    (h' : types.Leads ty (steps ++ rest) ty'') : types.Leads ty' rest ty'' := by
  induction h with
  | here => exact h'
  | deref hr _ _ ih => exact ih ((leads_deref_iff hr).mp h').2
  | member hr hof _ ih =>
    obtain ⟨of, hof', h'⟩ := (leads_member_iff hr).mp h'
    obtain rfl := Option.some.inj (hof.symm.trans hof')
    exact ih h'

theorem Leads.unfolds (h : types.Leads ty steps ty') (hu : types.Unfolds ty) :
    types.Unfolds ty' := by
  induction h with
  | here => exact hu
  | deref _ hb _ ih => exact ih hb
  | member hr hof _ ih =>
    rw [hr.unfolds_iff] at hu
    cases hu with
    | plain hp => cases hp
    | record hall => exact ih (hall _ (mem_of_lookup hof))

theorem Leads.isProper (h : types.Leads ty steps ty') (ht : types.isProper) (hp : ty.isProper) :
    ty'.isProper := by
  induction h with
  | here => exact hp
  | deref hr _ _ ih => exact ih (by simpa [Ty.isProper] using hr.isProper ht hp)
  | member hr hof _ ih =>
    obtain ⟨-, -, hall⟩ := Ty.isProper_record_iff.mp (hr.isProper ht hp)
    exact ih (hall _ (mem_of_lookup hof))

theorem isLocation_append_iff (h : types.Leads ty steps ty') :
    types.IsLocation ty (steps ++ rest) ↔ types.IsLocation ty' rest := by
  constructor
  · rintro ⟨ty'', plain, hl, hp⟩
    exact ⟨ty'', plain, h.of_append hl, hp⟩
  · rintro ⟨ty'', plain, hl, hp⟩
    exact ⟨ty'', plain, h.append hl, hp⟩

theorem isLocation_nil (h : types.Resolves ty ty') (hp : ty'.isPlain) : types.IsLocation ty [] :=
  ⟨ty, ty', .here, h, hp⟩

theorem isLocation_reference_iff (h : types.Resolves ty (.reference base)) :
    types.IsLocation ty steps ↔ steps = [] ∨
      ∃ rest, steps = .deref :: rest ∧ types.Unfolds base ∧ types.IsLocation base rest := by
  constructor
  · rintro ⟨ty', plain, hl, hp⟩
    cases hl with
    | here => exact .inl rfl
    | deref h' hu hl =>
      obtain ⟨⟩ := h.unique h'
      exact .inr ⟨_, rfl, hu, ty', plain, hl, hp⟩
    | member h' _ _ => cases h.unique h'
  · rintro (rfl | ⟨rest, rfl, hu, ty', plain, hl, hp⟩)
    · exact isLocation_nil h rfl
    · exact ⟨ty', plain, .deref h hu hl, hp⟩

theorem IsLocation.deref (hl : types.IsLocation base rest)
    (h : types.Resolves ty (.reference base)) (hu : types.Unfolds base) :
    types.IsLocation ty (.deref :: rest) :=
  (isLocation_reference_iff h).mpr (.inr ⟨rest, rfl, hu, hl⟩)

theorem isLocation_record_iff (h : types.Resolves ty (.record members)) :
    types.IsLocation ty steps ↔ ∃ name of rest, steps = .member name :: rest ∧
      members.lookup name = some of ∧ types.IsLocation of rest := by
  constructor
  · rintro ⟨ty', plain, hl, hr, hp⟩
    cases hl with
    | here =>
      obtain rfl := h.unique hr
      cases hp
    | deref h' _ _ => cases h.unique h'
    | member h' hof hl =>
      obtain ⟨⟩ := h.unique h'
      exact ⟨_, _, _, rfl, hof, ty', plain, hl, hr, hp⟩
  · rintro ⟨name, of, rest, rfl, hof, ty', plain, hl, hp⟩
    exact ⟨ty', plain, .member h hof hl, hp⟩

theorem IsLocation.member {of : Ty} (hl : types.IsLocation of rest)
    (h : types.Resolves ty (.record members)) (hof : members.lookup name = some of) :
    types.IsLocation ty (.member name :: rest) :=
  (isLocation_record_iff h).mpr ⟨name, of, rest, rfl, hof, hl⟩

theorem IsLocation.of_definition (h : types.IsLocation ty steps)
    (hn : types.get? name = some ty) : types.IsLocation (.named name) steps := by
  obtain ⟨ty', plain, hl, hr, hp⟩ := h
  cases hl with
  | here => exact isLocation_nil (.step hn hr) hp
  | deref h hu hl => exact ⟨ty', plain, .deref (.step hn h) hu hl, hr, hp⟩
  | member h hof hl => exact ⟨ty', plain, .member (.step hn h) hof hl, hr, hp⟩

/-- There is a location in every value that has a finite shape. -/
theorem exists_isLocation (ht : types.isProper) (h : types.Unfolds ty) (hp : ty.isProper) :
    ∃ steps, types.IsLocation ty steps := by
  induction h with
  | @plain ty hplain =>
    refine ⟨[], isLocation_nil (.refl ?_) hplain⟩
    rintro name rfl
    cases hplain
  | @record members _ ih =>
    obtain ⟨hne, hn, hall⟩ := Ty.isProper_record_iff.mp hp
    obtain ⟨m, hm⟩ := List.exists_mem_of_ne_nil members hne
    obtain ⟨steps, hs⟩ := ih m hm (hall m hm)
    exact ⟨.member m.1 :: steps, hs.member (.refl (by simp)) (lookup_of_mem hn hm)⟩
  | @named name ty hn _ ih =>
    obtain ⟨steps, hs⟩ := ih (List.all_eq_true.mp ht _ (mem_of_lookup hn))
    exact ⟨steps, hs.of_definition hn⟩

end TypeTable

namespace MemoryPath

variable {p q r : MemoryPath}

/-- The place of `q` is that of `p` or lies in it or behind it. -/
def Covers (p q : MemoryPath) : Prop := p.resource = q.resource ∧ p.segments <+: q.segments

instance (p q : MemoryPath) : Decidable (p.Covers q) := inferInstanceAs (Decidable (_ ∧ _))

def Overlaps (p q : MemoryPath) : Prop := p.Covers q ∨ q.Covers p

instance (p q : MemoryPath) : Decidable (p.Overlaps q) := inferInstanceAs (Decidable (_ ∨ _))

theorem overlaps_of_covers (hp : p.Covers r) (hq : q.Covers r) : p.Overlaps q := by
  obtain ⟨hres, hpre⟩ := hp
  obtain ⟨hres', hpre'⟩ := hq
  rcases List.prefix_or_prefix_of_prefix hpre hpre' with h | h
  · exact .inl ⟨hres.trans hres'.symm, h⟩
  · exact .inr ⟨hres'.trans hres.symm, h⟩

theorem Covers.trans (h : p.Covers q) (h' : q.Covers r) : p.Covers r :=
  ⟨h.1.trans h'.1, h.2.trans h'.2⟩

def extend (p : MemoryPath) (steps : List MemorySegment) : MemoryPath :=
  ⟨p.resource, p.segments ++ steps⟩

@[simp] theorem extend_nil (p : MemoryPath) : p.extend [] = p := by simp [extend]

@[simp] theorem push_extend (p : MemoryPath) (step : MemorySegment) (steps : List MemorySegment) :
    (p.push step).extend steps = p.extend (step :: steps) := by
  simp [extend, push]

@[simp] theorem extend_extend (p : MemoryPath) (steps rest : List MemorySegment) :
    (p.extend steps).extend rest = p.extend (steps ++ rest) := by
  simp [extend]

@[simp] theorem covers_extend_iff {steps rest : List MemorySegment} :
    (p.extend steps).Covers (p.extend rest) ↔ steps <+: rest := by
  simp [Covers, extend]

@[simp] theorem covers_extend (p : MemoryPath) (steps : List MemorySegment) :
    p.Covers (p.extend steps) :=
  ⟨rfl, List.prefix_append _ _⟩

theorem covers_push (p : MemoryPath) (step : MemorySegment) : p.Covers (p.push step) :=
  ⟨rfl, List.prefix_append _ _⟩

theorem covers_iff : p.Covers q ↔ ∃ steps, q = p.extend steps := by
  constructor
  · obtain ⟨resource, segments⟩ := q
    rintro ⟨rfl, steps, rfl⟩
    exact ⟨steps, rfl⟩
  · rintro ⟨steps, rfl⟩
    exact covers_extend p steps

end MemoryPath

/-- Structures have members of different names, in the types of the leaves as well. -/
structure Layout.IsProper (l : Layout Ty) : Prop where
  values : ∀ ty ∈ l.values, ty.isProper
  members : l.DistinctMembers

def Slot.IsProper : Slot Ty → Prop
  | .leaf ty => ty.isProper
  | .inner ms => ms.names.Nodup ∧ ms.IsProper

namespace Layout

variable {unfold : Name → Except TypeError (Slot Ty)}

theorem IsProper.cons {slot : Slot Ty} {l : Layout Ty} (hs : slot.IsProper) (h : l.IsProper)
    (key : Name) : (Layout.cons key slot l).IsProper := by
  cases slot with
  | leaf ty => exact ⟨List.forall_mem_cons.mpr ⟨hs, h.values⟩, h.members⟩
  | inner ms =>
    obtain ⟨hn, hs⟩ := hs
    exact ⟨List.forall_mem_append.mpr ⟨hs.values, h.values⟩, hn, hs.members, h.members⟩

mutual

theorem isProper_of_expandWith (hu : ∀ name slot, unfold name = .ok slot → slot.IsProper) :
    ∀ {ty : Ty} {slot : Slot Ty}, expandWith unfold ty = .ok slot → ty.isProper → slot.IsProper
  | .record members, slot, h, hp => by
    obtain ⟨l, hm, rfl⟩ := expandWith_record_eq_ok_iff.mp h
    simp only [Ty.isProper, Bool.and_eq_true, decide_eq_true_iff] at hp
    exact ⟨names_expandMembersWith hm ▸ hp.1.2, isProper_of_expandMembersWith hu hm hp.2⟩
  | .named name, slot, h, _ => hu name slot h
  | .int, _, h, hp | .comparison, _, h, hp | .unit, _, h, hp | .reference _, _, h, hp => by
    obtain rfl := Except.ok.inj h
    exact hp

theorem isProper_of_expandMembersWith (hu : ∀ name slot, unfold name = .ok slot → slot.IsProper) :
    ∀ {members : List (Name × Ty)} {l : Layout Ty}, expandMembersWith unfold members = .ok l →
      Ty.areProper members → l.IsProper
  | [], l, h, _ => by
    obtain rfl := Except.ok.inj h
    exact ⟨by simp [values], trivial⟩
  | (key, ty) :: rest, l, h, hp => by
    rw [Ty.areProper, Bool.and_eq_true] at hp
    obtain ⟨slot, l', hs, hr, rfl⟩ := expandMembersWith_cons_eq_ok_iff.mp h
    have hslot := isProper_of_expandWith hu hs hp.1
    exact .cons hslot (isProper_of_expandMembersWith hu hr hp.2) key

end

theorem isProper_of_unfoldName {types : TypeTable} (ht : types.isProper) (fuel : Nat)
    (within : List Name) (name : Name) (slot : Slot Ty)
    (h : unfoldName types fuel within name = .ok slot) : slot.IsProper := by
  induction fuel generalizing within name slot with
  | zero => cases h
  | succ fuel ih =>
    rw [unfoldName] at h
    split at h
    · cases h
    · cases hn : types.get? name with
      | none => simp [hn] at h
      | some ty =>
        rw [hn] at h
        exact isProper_of_expandWith (ih _) h
          (List.all_eq_true.mp ht _ (mem_of_lookup hn))

end Layout

namespace Environment

variable {env : Environment} {p q : MemoryPath} {ty : Ty}

def isProper (env : Environment) : Bool :=
  env.types.isProper && env.vars.entries.all (·.2.isProper)

/-- A path can be followed, from a slot that holds a reference, to a value of a type. -/
def Leads (env : Environment) (p : MemoryPath) (ty : Ty) : Prop :=
  ∃ l base, env.layout = .ok l ∧ l.leafAt p.resource = .ok (.reference base) ∧
    env.types.Leads (.reference base) p.segments ty

/-- A path leads to a value without members or to a reference. -/
def IsLocation (env : Environment) (p : MemoryPath) : Prop :=
  ∃ ty plain, env.Leads p ty ∧ env.types.Resolves ty plain ∧ plain.isPlain

theorem leads_iff {l : Layout Ty} (hl : env.layout = .ok l) : env.Leads p ty ↔
    ∃ base, l.leafAt p.resource = .ok (.reference base) ∧
      env.types.Leads (.reference base) p.segments ty := by
  constructor
  · rintro ⟨l', base, hl', hb, h⟩
    obtain rfl := Except.ok.inj (hl.symm.trans hl')
    exact ⟨base, hb, h⟩
  · rintro ⟨base, hb, h⟩
    exact ⟨l, base, hl, hb, h⟩

theorem isLocation_iff {l : Layout Ty} (hl : env.layout = .ok l) : env.IsLocation p ↔
    ∃ base, l.leafAt p.resource = .ok (.reference base) ∧
      env.types.IsLocation (.reference base) p.segments := by
  constructor
  · rintro ⟨ty, plain, h, hp⟩
    obtain ⟨base, hb, h⟩ := (leads_iff hl).mp h
    exact ⟨base, hb, ty, plain, h, hp⟩
  · rintro ⟨base, hb, ty, plain, h, hp⟩
    exact ⟨ty, plain, (leads_iff hl).mpr ⟨base, hb, h⟩, hp⟩

theorem isProper_types (he : env.isProper) : env.types.isProper := (Bool.and_eq_true_iff.mp he).1

theorem isProper_layout {l : Layout Ty} (he : env.isProper) (hl : env.layout = .ok l) :
    l.IsProper := by
  have hvars : Ty.areProper env.vars.entries := by
    rw [Ty.areProper_iff]
    exact List.all_eq_true.mp (Bool.and_eq_true_iff.mp he).2
  have hunfold := Layout.isProper_of_unfoldName (isProper_types he)
  exact Layout.isProper_of_expandMembersWith (hunfold _ _) hl hvars

theorem isProper_of_leafAt {l : Layout Ty} (he : env.isProper) (hl : env.layout = .ok l)
    {path : ResourcePath} (h : l.leafAt path = .ok ty) : ty.isProper :=
  (isProper_layout he hl).values ty (Layout.mem_values_of_leafAt h)

theorem isProper_of_leads (he : env.isProper) (h : env.Leads p ty) : ty.isProper := by
  obtain ⟨l, base, hl, hb, h⟩ := h
  exact h.isProper (isProper_types he) (isProper_of_leafAt he hl hb)

theorem nodup_paths {l : Layout Ty} (he : env.isProper) (hl : env.layout = .ok l) :
    l.paths.Nodup := by
  apply Layout.nodup_paths _ (isProper_layout he hl).members
  exact names_layout hl ▸ env.vars.nodup_keys

theorem isLocation_extend_iff (h : env.Leads p ty) {steps : List MemorySegment} :
    env.IsLocation (p.extend steps) ↔ env.types.IsLocation ty steps := by
  obtain ⟨l, base, hl, hb, h⟩ := h
  constructor
  · intro hq
    obtain ⟨base', hb', hq⟩ := (isLocation_iff hl).mp hq
    obtain ⟨⟩ := hb.symm.trans hb'
    exact (TypeTable.isLocation_append_iff h).mp hq
  · intro hs
    exact (isLocation_iff hl).mpr ⟨base, hb, (TypeTable.isLocation_append_iff h).mpr hs⟩

theorem exists_isLocation (he : env.isProper) (h : env.Leads p ty) :
    ∃ q, env.IsLocation q ∧ p.Covers q := by
  have hu : env.types.Unfolds ty := by
    obtain ⟨l, base, -, -, h⟩ := h
    exact h.unfolds (.plain rfl)
  obtain ⟨rest, hr⟩ :=
    TypeTable.exists_isLocation (isProper_types he) hu (isProper_of_leads he h)
  exact ⟨p.extend rest, (isLocation_extend_iff h).mpr hr, p.covers_extend rest⟩

end Environment

end Reversible
