import Mathlib.Data.List.Perm.Subperm
import Reversible.Proofs.Layout.Variables

/-! # Names of types and what they stand for

A name resolves to the type at the end of its chain of definitions. A type unfolds if replacing
names by their definitions comes to an end, where references are left alone. Both are said without
a bound on the steps. `TypeTable.resolve` and the expansions of types bound their searches by the
size of the table and refuse names that come again; neither stops a search that has an end. Refusing
names is what ends a search: the bounded one is the only solution of the equation without a bound.
-/

namespace Reversible

def Ty.isPlain : Ty → Bool
  | .named _ => false
  | .record _ => false
  | _ => true

namespace TypeTable

variable {types : TypeTable} {ty ty' : Ty} {name : Name} {fuel : Nat} {seen : List Name}

/-- A chain of names leads from a type to one that is not a name. -/
inductive Resolves (types : TypeTable) : Ty → Ty → Prop where
  | refl {ty : Ty} : (∀ name, ty ≠ .named name) → types.Resolves ty ty
  | step {name : Name} {ty ty' : Ty} :
      types.get? name = some ty → types.Resolves ty ty' → types.Resolves (.named name) ty'

/-- All names in a type are defined and none leads back to itself, apart from those behind
references. -/
inductive Unfolds (types : TypeTable) : Ty → Prop where
  | plain {ty : Ty} : ty.isPlain → types.Unfolds ty
  | record {members : List (Name × Ty)} :
      (∀ m ∈ members, types.Unfolds m.2) → types.Unfolds (.record members)
  | named {name : Name} {ty : Ty} :
      types.get? name = some ty → types.Unfolds ty → types.Unfolds (.named name)

/-- Unfolding a type comes across a name. -/
inductive Mentions (types : TypeTable) : Ty → Name → Prop where
  | here {name : Name} : types.Mentions (.named name) name
  | definition {name other : Name} {ty : Ty} :
      types.get? other = some ty → types.Mentions ty name → types.Mentions (.named other) name
  | member {name : Name} {members : List (Name × Ty)} {m : Name × Ty} :
      m ∈ members → types.Mentions m.2 name → types.Mentions (.record members) name

theorem Resolves.unique {a b : Ty} (ha : types.Resolves ty a) (hb : types.Resolves ty b) :
    a = b := by
  induction ha with
  | refl hne =>
    cases hb with
    | refl _ => rfl
    | step _ _ => exact absurd rfl (hne _)
  | step hn _ ih =>
    cases hb with
    | refl hne => exact absurd rfl (hne _)
    | step hn' hb => exact ih (Option.some.inj (hn'.symm.trans hn) ▸ hb)

theorem Resolves.trans {ty'' : Ty} (h : types.Resolves ty ty') (h' : types.Resolves ty' ty'') :
    types.Resolves ty ty'' := by
  induction h with
  | refl _ => exact h'
  | step hn _ ih => exact .step hn (ih h')

theorem Resolves.unfolds_iff (h : types.Resolves ty ty') :
    types.Unfolds ty ↔ types.Unfolds ty' := by
  induction h with
  | refl _ => rfl
  | step hn _ ih =>
    rw [← ih]
    constructor
    · intro hu
      cases hu with
      | plain hp => cases hp
      | named hn' hu => exact Option.some.inj (hn'.symm.trans hn) ▸ hu
    · exact .named hn

theorem Resolves.mentions (h : types.Resolves ty ty') (hm : types.Mentions ty' name) :
    types.Mentions ty name := by
  induction h with
  | refl _ => exact hm
  | step hn _ ih => exact .definition hn (ih hm)

/-- Unfolding never comes back to a name within its own definition. -/
theorem Unfolds.not_mentions (h : types.Unfolds ty) {definition : Ty}
    (hm : types.Mentions ty name) (hn : types.get? name = some definition) :
    ¬ types.Mentions definition name := by
  induction h with
  | plain hp =>
    cases hm with
    | _ => cases hp
  | record _ ih =>
    cases hm with
    | member hmem hm => exact ih _ hmem hm
  | named hn' _ ih =>
    cases hm with
    | here =>
      intro hd
      obtain rfl := Option.some.inj (hn.symm.trans hn')
      exact ih hd hd
    | definition hn'' hm =>
      obtain rfl := Option.some.inj (hn'.symm.trans hn'')
      exact ih hm

/-! ### Room for a search -/

/-- A search that has passed the names `seen` and may take `fuel` more steps can pass all other
names of the table. -/
structure Room (types : TypeTable) (fuel : Nat) (seen : List Name) : Prop where
  nodup : seen.Nodup
  subset : seen ⊆ types.keys
  enough : types.size < fuel + seen.length

theorem Room.start (types : TypeTable) : types.Room (types.size + 1) [] where
  nodup := .nil
  subset := List.nil_subset _
  enough := by simp

theorem Room.push (h : types.Room fuel seen) (hn : types.get? name = some ty)
    (hs : name ∉ seen) : ∃ rest, fuel = rest + 1 ∧ types.Room rest (name :: seen) := by
  have hnodup : (name :: seen).Nodup := List.nodup_cons.mpr ⟨hs, h.nodup⟩
  have hsubset : name :: seen ⊆ types.keys :=
    List.cons_subset.mpr ⟨NameMap.mem_keys_iff.mpr (by simp [NameMap.contains, hn]), h.subset⟩
  have hlength : seen.length + 1 ≤ types.size := by
    simpa [NameMap.keys, NameMap.size] using (hnodup.subperm hsubset).length_le
  have henough := h.enough
  refine ⟨fuel - 1, by omega, hnodup, hsubset, ?_⟩
  rw [List.length_cons]
  omega

/-! ### Searches without a bound -/

section Solution

variable {ι γ : Type} {step : (List Name → ι → γ) → List Name → ι → γ}

/-- A step of a search, after the names `passed`, goes on only after one more name of the table. -/
def Advances (types : TypeTable) (step : (List Name → ι → γ) → List Name → ι → γ) : Prop :=
  ∀ g g' passed, (∀ name, types.contains name → name ∉ passed →
    g (name :: passed) = g' (name :: passed)) → step g passed = step g' passed

def ahead (types : TypeTable) (passed : List Name) : List Name :=
  types.keys.filter (· ∉ passed)

theorem length_ahead_cons_lt {passed : List Name} (hn : types.contains name)
    (hp : name ∉ passed) :
    (types.ahead (name :: passed)).length < (types.ahead passed).length := by
  have hmem : name ∈ types.ahead passed :=
    List.mem_filter.mpr ⟨NameMap.mem_keys_iff.mpr hn, decide_eq_true hp⟩
  have heq : types.ahead (name :: passed) = (types.ahead passed).filter (· ≠ name) := by
    rw [ahead, ahead, List.filter_filter]
    simp
  rw [heq, List.length_filter_lt_length_iff_exists]
  exact ⟨name, hmem, by simp⟩

/-- With more steps allowed than there are names ahead, bounds make no difference. -/
theorem Advances.eq_of_lt (h : types.Advances step) (run run' : Nat → List Name → ι → γ)
    (hrun : ∀ fuel, run (fuel + 1) = step (run fuel))
    (hrun' : ∀ fuel, run' (fuel + 1) = step (run' fuel)) {fuel : Nat} {passed : List Name}
    (hlt : (types.ahead passed).length < fuel) : run fuel passed = run' fuel passed := by
  induction fuel generalizing passed with
  | zero => exact absurd hlt (Nat.not_lt_zero _)
  | succ fuel ih =>
    rw [hrun, hrun']
    apply h
    intro name hn hp
    have hless := length_ahead_cons_lt hn hp
    exact ih (by omega)

/-- A search that advances is the only one that satisfies its equation. -/
theorem Advances.eq_step_iff (h : types.Advances step) {run : Nat → List Name → ι → γ}
    (hrun : ∀ fuel, run (fuel + 1) = step (run fuel)) {g : List Name → ι → γ} :
    g = step g ↔ g = run (types.size + 1) := by
  have hlt : ∀ passed, (types.ahead passed).length < types.size + 1 := by
    intro passed
    have hle : (types.ahead passed).length ≤ types.keys.length := List.length_filter_le _ _
    rw [NameMap.keys, List.length_map] at hle
    exact Nat.lt_succ_of_le hle
  constructor
  · intro hg
    funext passed
    exact h.eq_of_lt (fun _ => g) run (fun _ => hg) hrun (hlt passed)
  · rintro rfl
    rw [← hrun]
    funext passed
    exact h.eq_of_lt run (fun fuel => run (fuel + 1)) hrun (fun fuel => hrun (fuel + 1))
      (hlt passed)

end Solution

/-! ### Resolving names -/

/-- One step along a chain of names, where `next` follows the rest of it. -/
def followStep (types : TypeTable) (next : List Name → Ty → Except TypeError Ty)
    (seen : List Name) : Ty → Except TypeError Ty
  | .named name =>
    if name ∈ seen then .error (.cyclic name)
    else match types.get? name with
      | none => .error (.undefined name)
      | some ty => next (name :: seen) ty
  | ty => .ok ty

theorem follow_succ (types : TypeTable) (fuel : Nat) :
    types.follow (fuel + 1) = types.followStep (types.follow fuel) := by
  funext seen ty
  cases ty <;> rfl

theorem advances_followStep (types : TypeTable) : types.Advances types.followStep := by
  intro g g' seen h
  funext ty
  cases ty with
  | named name =>
    rw [followStep, followStep]
    split
    · rfl
    · next hs =>
      cases hn : types.get? name with
      | none => rfl
      | some ty => exact congrFun (h name (by simp [NameMap.contains, hn]) hs) ty
  | _ => rfl

theorem follow_of_ne_named (h : ∀ name, ty ≠ .named name) : follow types fuel seen ty = .ok ty := by
  cases ty with
  | named name => exact absurd rfl (h name)
  | _ => cases fuel <;> rfl

theorem resolves_of_follow (h : follow types fuel seen ty = .ok ty') : types.Resolves ty ty' := by
  induction fuel generalizing seen ty with
  | zero =>
    cases ty with
    | named name => cases h
    | _ =>
      obtain rfl := Except.ok.inj h
      exact .refl (by simp)
  | succ fuel ih =>
    cases ty with
    | named name =>
      rw [follow] at h
      split at h
      · cases h
      · cases hn : types.get? name with
        | none => simp [hn] at h
        | some ty => exact .step hn (ih (by simpa [hn] using h))
    | _ =>
      obtain rfl := Except.ok.inj h
      exact .refl (by simp)

theorem resolves_of_resolve (h : types.resolve ty = .ok ty') : types.Resolves ty ty' :=
  resolves_of_follow h

theorem Unfolds.exists_follow (h : types.Unfolds ty) (hr : types.Room fuel seen)
    (hs : ∀ name ∈ seen, ¬ types.Mentions ty name) :
    ∃ ty', follow types fuel seen ty = .ok ty' := by
  induction h generalizing fuel seen with
  | plain hp =>
    refine ⟨_, follow_of_ne_named ?_⟩
    rintro name rfl
    cases hp
  | record _ _ => exact ⟨_, follow_of_ne_named (by simp)⟩
  | @named name ty hn hu ih =>
    have hseen : name ∉ seen := fun hmem => hs name hmem .here
    obtain ⟨rest, rfl, hrest⟩ := hr.push hn hseen
    rw [follow, if_neg hseen, hn]
    refine ih hrest ?_
    rintro other hmem hm
    rcases List.mem_cons.mp hmem with rfl | hmem
    · exact (Unfolds.named hn hu).not_mentions .here hn hm
    · exact hs other hmem (.definition hn hm)

theorem Unfolds.exists_resolve (h : types.Unfolds ty) : ∃ ty', types.resolve ty = .ok ty' :=
  h.exists_follow (.start types) (by simp)

theorem Unfolds.resolve_eq (h : types.Unfolds ty) (hr : types.Resolves ty ty') :
    types.resolve ty = .ok ty' := by
  obtain ⟨ty'', heq⟩ := h.exists_resolve
  obtain rfl := hr.unique (resolves_of_resolve heq)
  exact heq

end TypeTable

end Reversible
