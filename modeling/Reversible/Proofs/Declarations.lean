import Mathlib.Data.List.Basic
import Reversible.Declarations
import Reversible.Proofs.Layout.Variables
import Reversible.Proofs.Place.Occurrence

/-! # Declared variables

The declared variables of a routine are those that it mentions: its parameters, and the variables
of all paths in its body. If the declarations have no fault, the environment knows all of them.
-/

namespace Reversible

theorem exists_firstsAfter_iff {α κ : Type} [DecidableEq κ] {key : α → κ} {before l : List α}
    {x : κ} : (∃ a ∈ firstsAfter key before l, key a = x) ↔
      (∃ a ∈ l, key a = x) ∧ ∀ b ∈ before, key b ≠ x := by
  induction l generalizing before with
  | nil => simp [firstsAfter]
  | cons c rest ih =>
    rw [firstsAfter]
    split
    · next hc =>
      obtain ⟨b, hb, hk⟩ : ∃ b ∈ before, key b = key c := by simpa using hc
      rw [ih]
      simp only [List.mem_cons, exists_eq_or_imp]
      refine and_congr_left fun hx => ⟨.inr, fun h => h.resolve_left ?_⟩
      exact fun hcx => hx b hb (hk.trans hcx)
    · next hc =>
      have hc' : ∀ b ∈ before, key b ≠ key c := by simpa using hc
      simp only [List.mem_cons, exists_eq_or_imp, ih, List.mem_append, List.not_mem_nil, or_false]
      by_cases hcx : key c = x
      · simpa [hcx] using hc'
      · simp only [hcx, false_or]
        refine and_congr_right fun _ => ⟨fun h b hb => h b (.inl hb), ?_⟩
        rintro h b (hb | rfl)
        · exact h b hb
        · exact hcx

theorem Storage.root_path (place : Storage) : place.path.root = place.root.name := by
  induction place with
  | slot id => rfl
  | typed of type span ih => exact ih
  | member of id span ih => exact ih

theorem Expr.exists_root_of_mem_resourcePaths {e : Expr} {path : ResourcePath}
    (h : path ∈ e.resourcePaths) : ∃ id ∈ e.roots, id.name = path.root := by
  obtain ⟨place, ho, rfl⟩ := mem_resourcePaths_iff.mp h
  exact ⟨place.root, mem_roots_iff.mpr (.inl ⟨place, ho, rfl⟩), place.root_path.symm⟩

theorem Expr.exists_root_of_mem_memories {e : Expr} {m : Memory} (h : m ∈ e.memories) :
    ∃ id ∈ e.roots, id.name = m.path.resource.root := by
  refine ⟨m.base.root, mem_roots_iff.mpr (.inr ⟨m, mem_memories_iff.mp h, rfl⟩), ?_⟩
  rw [m.resource_path, m.base.root_path]

def Instruction.exprs (i : Instruction) : List Expr := i.created ++ i.destroyed ++ i.operands

theorem Instruction.roots_eq (i : Instruction) : i.roots = i.exprs.flatMap Expr.roots := by
  rw [exprs, List.flatMap_append, List.flatMap_append, roots]

namespace Declarations

variable {r : Routine} {env : Environment} {name : Name} {site : Span}

theorem mem_keys_sites_iff :
    name ∈ (ofRoutine r).sites.keys ↔ ∃ id ∈ mentions r, id.name = name := by
  rw [ofRoutine, NameMap.mem_keys_foldl_insertNew]
  exact or_iff_right (List.not_mem_nil)

theorem contains_of_faults (h : faults r env = []) (hid : ∃ id ∈ mentions r, id.name = name) :
    env.contains name := by
  have hk : name ∈ (ofRoutine r).sites.keys := mem_keys_sites_iff.mpr hid
  obtain ⟨e, he, hn⟩ := List.mem_map.mp hk
  have hu : (ofRoutine r).untyped env = [] := by
    simp only [faults, List.append_eq_nil_iff, List.map_eq_nil_iff] at h
    exact h.2
  have := List.filter_eq_nil_iff.mp hu e he
  rw [← hn]
  simpa using this

theorem exists_uniqueParams_iff {params : List Param} :
    (∃ id ∈ uniqueParams params, id.name = name) ↔ ∃ q ∈ params, q.id.name = name := by
  have h := @exists_firstsAfter_iff Param Name _ (fun q => q.id.name) [] params name
  simpa [uniqueParams, firsts] using h

theorem isOutput_iff : (ofRoutine r).isOutput name ↔ ∃ q ∈ r.outputs, q.id.name = name := by
  rw [isOutput, List.any_eq_true, ← exists_uniqueParams_iff]
  simp only [beq_iff_eq]
  rfl

theorem exists_mention_of_mem_params {q : Param} (hq : q ∈ r.inputs ∨ q ∈ r.outputs) :
    ∃ id ∈ mentions r, id.name = q.id.name :=
  ⟨q.id, List.mem_append_left _ (List.mem_map_of_mem (List.mem_append.mpr hq)), rfl⟩

theorem exists_mention_of_mem_inputs {id : Ident} (h : id ∈ (ofRoutine r).inputs) :
    ∃ id' ∈ mentions r, id'.name = id.name := by
  obtain ⟨q, hq, hn⟩ := exists_uniqueParams_iff.mp ⟨id, h, rfl⟩
  rw [← hn]
  exact exists_mention_of_mem_params (.inl hq)

theorem mem_mentions_of_mem_roots {i : Instruction} {e : Expr} {id : Ident} (hi : i ∈ r.body)
    (he : e ∈ i.exprs) (hid : id ∈ e.roots) : id ∈ mentions r := by
  refine List.mem_append_right _ (List.mem_flatMap.mpr ⟨i, hi, ?_⟩)
  rw [i.roots_eq]
  exact List.mem_flatMap.mpr ⟨e, he, hid⟩

theorem exists_mention_of_mem_body {i : Instruction} {e : Expr} {path : ResourcePath}
    (hi : i ∈ r.body) (he : e ∈ i.created ∨ e ∈ i.destroyed) (hp : path ∈ e.resourcePaths) :
    ∃ id ∈ mentions r, id.name = path.root := by
  obtain ⟨id, hid, hn⟩ := Expr.exists_root_of_mem_resourcePaths hp
  have he : e ∈ i.exprs := List.mem_append_left _ (List.mem_append.mpr he)
  exact ⟨id, mem_mentions_of_mem_roots hi he hid, hn⟩

theorem mentions_eq (r : Routine) : mentions r =
    r.inputs.map (·.id) ++ r.outputs.map (·.id) ++
      r.body.flatMap fun i => (i.created ++ i.destroyed ++ i.operands).flatMap Expr.roots := by
  rw [mentions, Routine.params, List.map_append]
  exact congrArg _ (List.flatMap_congr fun i _ => i.roots_eq)

theorem mem_keys_sites_iff_contains : name ∈ (ofRoutine r).sites.keys ↔
    (∃ q ∈ r.inputs ++ r.outputs, q.id.name = name) ∨
      ∃ i ∈ r.body, ∃ e ∈ i.created ++ i.destroyed ++ i.operands,
        ∃ place, e.Contains place ∧ place.root.name = name := by
  rw [mem_keys_sites_iff, mentions_eq, ← List.map_append]
  simp only [List.mem_append (a := (_ : Ident)), List.mem_map, List.mem_flatMap, or_and_right,
    exists_or, ← Expr.exists_root_iff]
  refine or_congr ?_ ?_
  · constructor
    · rintro ⟨_, ⟨q, hq, rfl⟩, hname⟩
      exact ⟨q, hq, hname⟩
    · rintro ⟨q, hq, hname⟩
      exact ⟨q.id, ⟨q, hq, rfl⟩, hname⟩
  · constructor
    · rintro ⟨id, ⟨i, hi, e, he, hid⟩, hname⟩
      exact ⟨i, hi, e, he, id, hid, hname⟩
    · rintro ⟨i, hi, e, he, id, hid, hname⟩
      exact ⟨id, ⟨i, hi, e, he, hid⟩, hname⟩

theorem site?_ofRoutine (r : Routine) (name : Name) :
    (ofRoutine r).site? name = ((mentions r).find? (·.name = name)).map (·.span) := by
  rw [site?, ofRoutine, NameMap.get?_foldl_insertNew Ident.name Ident.span]
  simp

theorem pairwise_untyped (ds : Declarations) (env : Environment) :
    (ds.untyped env).Pairwise fun a b => compare a.1 b.1 = .lt :=
  ds.sites.ascending.filter _

theorem mem_untyped_iff {ds : Declarations} {site : Span} :
    (name, site) ∈ ds.untyped env ↔ ds.site? name = some site ∧ ¬ env.contains name := by
  simp [untyped, List.mem_filter, NameMap.mem_entries_iff, site?]

theorem filter_code_faults (r : Routine) (env : Environment) :
    ((faults r env).map (·.diagnostic)).filter (·.code = .untypedVariable) =
      ((ofRoutine r).untyped env).map fun (name, site) =>
        (DeclarationFault.untypedVariable name site).diagnostic := by
  have hparams : ∀ params, ((repeatedParams params).map (·.diagnostic)).filter
      (·.code = .untypedVariable) = [] := by
    intro params
    rw [List.filter_eq_nil_iff]
    intro d hd
    obtain ⟨f, hf, rfl⟩ := List.mem_map.mp hd
    obtain ⟨e, -, rfl⟩ := List.mem_map.mp hf
    simp [DeclarationFault.diagnostic]
  rw [faults, List.map_append, List.map_append, List.filter_append, List.filter_append, hparams,
    hparams, List.map_map, List.nil_append, List.nil_append, List.filter_eq_self.mpr]
  · rfl
  · intro d hd
    obtain ⟨e, -, rfl⟩ := List.mem_map.mp hd
    rfl

end Declarations

end Reversible
