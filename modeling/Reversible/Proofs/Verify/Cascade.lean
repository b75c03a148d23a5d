import Reversible.Proofs.Verify.Passes

/-! # Errors do not cascade

Each pass reports under codes of its own, and the passes report one after the other. A code tells
which pass it is from, and so which passes have been skipped: after an error in the declarations all
others, after an error in the graph the one that looks at slots. Among the checks of slots, a
conflict takes the place of everything else.
-/

namespace Reversible

namespace Pass

variable {p q : Pass} {c : Code}

theorem eq_of_mem_codes (hp : c ∈ p.codes) (hq : c ∈ q.codes) : p = q := by
  cases p <;> cases q <;> revert c <;> decide

theorem internal_not_mem_codes (p : Pass) : .internal ∉ p.codes := by
  cases p <;> decide

theorem tooMany_not_mem_codes (p : Pass) : .tooMany ∉ p.codes := by
  cases p <;> decide

end Pass

namespace SlotAction

variable {s : Snapshot} {a : SlotAction} {acts : List SlotAction} {f : OccupancyFault}

theorem code_fault?_ne_conflict (h : a.fault? s = some f) : f.diagnostic.code ≠ .conflict := by
  unfold fault? at h
  split at h
  · cases h
  · cases a with
    | finalizing path span =>
      obtain rfl := Option.some.inj (Option.ite_none_left_eq_some.mp h).2
      simp [OccupancyFault.diagnostic]
    | reading path span =>
      obtain rfl := Option.some.inj (Option.ite_none_left_eq_some.mp h).2
      simp [OccupancyFault.diagnostic]
    | initializing path span =>
      obtain rfl := Option.some.inj (Option.ite_none_left_eq_some.mp h).2
      simp [OccupancyFault.diagnostic]

theorem code_replay_ne_conflict (h : f ∈ replay s acts) : f.diagnostic.code ≠ .conflict := by
  induction acts generalizing s with
  | nil => cases h
  | cons a acts ih =>
    rcases List.mem_append.mp h with h | h
    · exact code_fault?_ne_conflict (Option.mem_toList.mp h)
    · exact ih h

end SlotAction

namespace OccupancySolution

variable {g : ControlGraph} {s : OccupancySolution} {ds : Declarations} {f : OccupancyFault}

theorem code_conflict (h : f ∈ conflicts g s ds) : f.diagnostic.code = .conflict := by
  unfold conflicts at h
  split at h
  · cases h
  · obtain ⟨e, -, he⟩ := List.mem_filterMap.mp h
    obtain ⟨-, he⟩ := Option.ite_none_right_eq_some.mp he
    obtain rfl := Option.some.inj he
    rfl

theorem code_replay_ne_conflict (h : f ∈ replay g s) : f.diagnostic.code ≠ .conflict := by
  obtain ⟨b, -, hf⟩ := List.mem_flatMap.mp h
  split at hf
  · cases hf
  · exact SlotAction.code_replay_ne_conflict hf

theorem code_endFault?_ne_conflict {t : Snapshot} {name : Name} {site : Span}
    (h : endFault? t ds name site = some f) : f.diagnostic.code ≠ .conflict := by
  unfold endFault? at h
  split at h
  · cases h
  · split at h
    · obtain rfl := Option.some.inj (Option.ite_none_left_eq_some.mp h).2
      simp [OccupancyFault.diagnostic]
    · obtain rfl := Option.some.inj (Option.ite_none_left_eq_some.mp h).2
      simp [OccupancyFault.diagnostic]

theorem code_ending_ne_conflict (h : f ∈ ending g s ds) : f.diagnostic.code ≠ .conflict := by
  unfold ending at h
  split at h
  · cases h
  · obtain ⟨e, -, he⟩ := List.mem_filterMap.mp h
    exact code_endFault?_ne_conflict he

/-- Either all faults of a solution are conflicts, or none is. -/
theorem code_faults (g : ControlGraph) (s : OccupancySolution) (ds : Declarations) :
    (∀ f ∈ faults g s ds, f.diagnostic.code = .conflict) ∨
      ∀ f ∈ faults g s ds, f.diagnostic.code ≠ .conflict := by
  unfold faults
  split
  · right
    rintro f hf
    rcases List.mem_append.mp hf with hf | hf
    · exact code_replay_ne_conflict hf
    · exact code_ending_ne_conflict hf
  · left
    exact fun f hf => code_conflict hf

end OccupancySolution

namespace RoutineReport

def codes (report : RoutineReport) : List Code := report.diagnostics.map (·.code)

end RoutineReport

namespace Routine

variable {r : Routine} {env : Environment} {config : QueueConfig} {pass : Pass} {c : Code}

/-- What a pass adds to the report: some of its own codes or one failure, and at the end perhaps
that there were more. -/
theorem codes_shown (r : Routine) (env : Environment) (config : QueueConfig) (pass : Pass) :
    ∃ group rest, (r.shown env config pass).map (·.code) = group ++ rest ∧
      ((∀ c ∈ group, c ∈ pass.codes) ∨ pass.canFail ∧ group = [.internal]) ∧
      (rest = [] ∨ group ≠ [] ∧ rest = [.tooMany]) ∧
      group.Sublist ((r.found env pass).map (·.code)) := by
  unfold shown
  split
  · exact ⟨[], [], rfl, by simp, .inl rfl, List.nil_sublist _⟩
  · rw [passQueue_eq]
    obtain ⟨rest, hflushed, hrest⟩ := Queue.flushed_ofList config (r.found env pass)
    have hkept := Queue.kept_ofList_sublist config (r.found env pass)
    have hnil : ((Queue.ofList config (r.found env pass)).kept.map (·.code)) = [] ↔
        r.found env pass = [] := by
      rw [List.map_eq_nil_iff, Queue.kept_ofList_eq_nil_iff]
    refine ⟨_, rest.map (·.code), by rw [hflushed, List.map_append], ?_, ?_, hkept.map _⟩
    · rcases r.found_codes env pass with h | ⟨hfail, h⟩
      · left
        rintro c hc
        obtain ⟨d, hd, rfl⟩ := List.mem_map.mp hc
        exact h d (hkept.subset hd)
      · refine .inr ⟨hfail, ?_⟩
        have hsub := hkept.map (·.code)
        rw [h] at hsub
        rcases List.sublist_singleton.mp hsub with he | he
        · rw [hnil.mp he] at h
          cases h
        · exact he
    · rcases hrest with rfl | ⟨hne, n, rfl⟩
      · exact .inl rfl
      · exact .inr ⟨hnil.not.mpr hne, rfl⟩

theorem codes_verify (r : Routine) (env : Environment) (config : QueueConfig) :
    (r.verify env config).codes =
      Pass.all.flatMap fun pass => (r.shown env config pass).map (·.code) := by
  unfold RoutineReport.codes
  rw [diagnostics_verify, List.map_flatMap]

theorem mem_shown_cases (h : c ∈ (r.shown env config pass).map (·.code)) :
    (c ∈ pass.codes ∨ pass.canFail ∧ c = .internal) ∧ c ∈ (r.found env pass).map (·.code) ∨
      c = .tooMany := by
  obtain ⟨group, rest, heq, hgroup, hrest, hsub⟩ := r.codes_shown env config pass
  rw [heq] at h
  rcases List.mem_append.mp h with hc | hc
  · refine .inl ⟨?_, hsub.subset hc⟩
    rcases hgroup with hgroup | ⟨hfail, rfl⟩
    · exact .inl (hgroup c hc)
    · exact .inr ⟨hfail, List.mem_singleton.mp hc⟩
  · rcases hrest with rfl | ⟨-, rfl⟩
    · cases hc
    · exact .inr (List.mem_singleton.mp hc)

theorem mem_found_of_mem_codes (h : c ∈ (r.verify env config).codes) (hc : c ∈ pass.codes) :
    c ∈ (r.shown env config pass).map (·.code) ∧ c ∈ (r.found env pass).map (·.code) := by
  rw [codes_verify] at h
  obtain ⟨other, -, hother⟩ := List.mem_flatMap.mp h
  rcases mem_shown_cases hother with ⟨hcode | ⟨-, rfl⟩, hfound⟩ | rfl
  · obtain rfl := Pass.eq_of_mem_codes hcode hc
    exact ⟨hother, hfound⟩
  · exact absurd hc pass.internal_not_mem_codes
  · exact absurd hc pass.tooMany_not_mem_codes

theorem shown_of_found (h : r.found env pass = []) : r.shown env config pass = [] := by
  unfold shown
  rw [passQueue_eq, h, Queue.flushed_ofList_eq_nil_iff.mpr rfl, ite_self]

theorem shown_of_declarationFaults (h : Declarations.faults r env ≠ [])
    (hp : pass ≠ .declarations) : r.shown env config pass = [] := by
  cases pass with
  | declarations => exact absurd rfl hp
  | graph => exact if_pos ⟨rfl, h⟩
  | occupancy => exact shown_of_found (if_neg fun hn => h hn.1)
  | memory => exact shown_of_found (if_neg h)

theorem codes_found_occupancy (h : .conflict ∈ (r.found env .occupancy).map (·.code)) :
    ∀ c ∈ (r.found env .occupancy).map (·.code), c = .conflict := by
  obtain ⟨d, hd, hcode⟩ := List.mem_map.mp h
  rw [found] at hd ⊢
  split at hd
  · rw [if_pos ‹_›]
    unfold occupancyPass at hd ⊢
    cases hp : r.occupancyProblem env with
    | error e =>
      rw [hp] at hd
      obtain rfl := List.mem_singleton.mp hd
      cases hcode
    | ok p =>
      rw [hp] at hd
      obtain ⟨f, hf, rfl⟩ := List.mem_map.mp hd
      rcases OccupancySolution.code_faults p.graph p.solve (.ofRoutine r) with hall | hnone
      · rintro c hc
        obtain ⟨d', hd', rfl⟩ := List.mem_map.mp hc
        obtain ⟨f', hf', rfl⟩ := List.mem_map.mp hd'
        exact hall f' hf'
      · exact absurd hcode (hnone f hf)
  · cases hd

/-- Errors in the declarations come alone. With an error in the graph there is none about slots, and
with a conflict no other one about slots. The codes come pass by pass, and after those of a pass at
most once that there were more. -/
theorem codes_separate (r : Routine) (env : Environment) (config : QueueConfig) :
    ((∃ c ∈ (r.verify env config).codes, c ∈ Pass.codes .declarations) →
      (∀ c ∈ (r.verify env config).codes, c ∈ Pass.codes .declarations ∨ c = .tooMany) ∧
        (r.verify env config).solution = none) ∧
    ((∃ c ∈ (r.verify env config).codes, c ∈ Pass.codes .graph) →
      (∀ c ∈ (r.verify env config).codes, c ∉ Pass.codes .occupancy) ∧
        (r.verify env config).solution = none) ∧
    (.conflict ∈ (r.verify env config).codes →
      ∀ c ∈ (r.verify env config).codes, c ∈ Pass.codes .occupancy → c = .conflict) ∧
    ∃ group rest : Pass → List Code,
      (r.verify env config).codes = Pass.all.flatMap (fun pass => group pass ++ rest pass) ∧
      ∀ pass, ((∀ c ∈ group pass, c ∈ pass.codes) ∨ pass.canFail ∧ group pass = [.internal]) ∧
        (rest pass = [] ∨ group pass ≠ [] ∧ rest pass = [.tooMany]) := by
  refine ⟨?_, ?_, ?_, ?_⟩
  · rintro ⟨c, hc, hcode⟩
    have hd : Declarations.faults r env ≠ [] := by
      intro hd
      have hfound := (mem_found_of_mem_codes hc hcode).2
      rw [found, hd] at hfound
      cases hfound
    refine ⟨fun c' hc' => ?_, by rw [solution_verify, if_neg fun hn => hd hn.1]⟩
    rw [codes_verify] at hc'
    obtain ⟨pass, -, hpass⟩ := List.mem_flatMap.mp hc'
    by_cases hp : pass = .declarations
    · subst hp
      rcases mem_shown_cases hpass with ⟨h | ⟨hfail, -⟩, -⟩ | h
      · exact .inl h
      · cases hfail
      · exact .inr h
    · rw [shown_of_declarationFaults hd hp] at hpass
      cases hpass
  · rintro ⟨c, hc, hcode⟩
    have hg : ControlGraph.faults r ≠ [] := by
      intro hg
      have hfound := (mem_found_of_mem_codes hc hcode).2
      rw [found, hg] at hfound
      cases hfound
    refine ⟨fun c' hc' hcode' => ?_, by rw [solution_verify, if_neg fun hn => hg hn.2]⟩
    have hfound := (mem_found_of_mem_codes hc' hcode').2
    rw [found, if_neg fun hn => hg hn.2] at hfound
    cases hfound
  · intro hconf c hc hcode
    have hin : Code.conflict ∈ Pass.codes .occupancy := by decide
    exact codes_found_occupancy (mem_found_of_mem_codes hconf hin).2 c
      (mem_found_of_mem_codes hc hcode).2
  · choose group rest heq hgroup hrest _ using r.codes_shown env config
    refine ⟨group, rest, ?_, fun pass => ⟨hgroup pass, hrest pass⟩⟩
    rw [codes_verify]
    exact List.flatMap_congr fun pass _ => heq pass

end Routine

end Reversible
