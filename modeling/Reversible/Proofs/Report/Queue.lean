import Reversible.Report.Queue

/-! # What a queue lets through

No limit and no removal of repetitions hides that a pass has something to report. What a queue keeps
is a part of it in the same order, and an unlimited queue reports all of it.
-/

namespace Reversible

namespace Queue

variable {q : Queue} {config : QueueConfig} {ds : List Diagnostic}

theorem kept_add_ne_nil (d : Diagnostic) (h : q.kept ≠ []) : (q.add d).kept ≠ [] := by
  rw [add]
  split
  · exact h
  · split
    · exact h
    · simp

theorem kept_addAll_ne_nil (ds : List Diagnostic) (h : q.kept ≠ []) : (q.addAll ds).kept ≠ [] := by
  induction ds generalizing q with
  | nil => exact h
  | cons d ds ih => exact ih (kept_add_ne_nil d h)

theorem kept_new_add (config : QueueConfig) (d : Diagnostic) : ((new config).add d).kept = [d] := by
  have hl : (new config).limitReached = false := by
    by_cases hz : config.errorLimit = 0
    · simp [new, limitReached, hz]
    · simp [new, limitReached, errorCount, hz]
  have hr : (new config).repeatsLast d = false := rfl
  rw [add, hl, hr, Bool.and_false, if_neg Bool.false_ne_true, if_neg Bool.false_ne_true]
  rfl

theorem kept_ofList_eq_nil_iff : (ofList config ds).kept = [] ↔ ds = [] := by
  cases ds with
  | nil => simp [ofList, addAll, new]
  | cons d ds =>
    have h : ((new config).add d).kept ≠ [] := by simp [kept_new_add]
    exact iff_of_false (kept_addAll_ne_nil ds h) (List.cons_ne_nil d ds)

theorem hasErrors_ofList : (ofList config ds).hasErrors = false ↔ ds = [] := by
  rw [hasErrors, errorCount, decide_eq_false_iff_not, Nat.not_lt, Nat.le_zero,
    List.length_eq_zero_iff, kept_ofList_eq_nil_iff]

theorem flushed_ofList_eq_nil_iff : (ofList config ds).flushed = [] ↔ ds = [] := by
  constructor
  · intro h
    exact kept_ofList_eq_nil_iff.mp (List.append_eq_nil_iff.mp h).1
  · rintro rfl
    simp [ofList, addAll, new, flushed]

theorem addAll_of_unlimited (hq : q.config = .unlimited) (ds : List Diagnostic) :
    q.addAll ds = { q with kept := q.kept ++ ds } := by
  induction ds generalizing q with
  | nil => simp [addAll]
  | cons d ds ih =>
    have hadd : q.add d = { q with kept := q.kept ++ [d] } := by
      simp [add, limitReached, hq, QueueConfig.unlimited]
    change (q.add d).addAll ds = _
    have hconfig : (q.add d).config = .unlimited := by rw [hadd, hq]
    rw [ih hconfig, hadd, List.append_assoc, List.singleton_append]

@[simp] theorem flushed_ofList_unlimited (ds : List Diagnostic) :
    (ofList .unlimited ds).flushed = ds := by
  rw [ofList, addAll_of_unlimited rfl, flushed]
  simp [new]

theorem config_addAll (q : Queue) (ds : List Diagnostic) : (q.addAll ds).config = q.config := by
  induction ds generalizing q with
  | nil => rfl
  | cons d ds ih =>
    have hadd : (q.add d).config = q.config := by
      unfold add
      split
      · rfl
      · split <;> rfl
    exact (ih (q.add d)).trans hadd

theorem kept_add_sublist (q : Queue) (d : Diagnostic) : (q.add d).kept.Sublist (q.kept ++ [d]) := by
  unfold add
  split
  · exact List.sublist_append_left q.kept [d]
  · split
    · exact List.sublist_append_left q.kept [d]
    · exact .refl _

theorem kept_addAll_sublist (q : Queue) (ds : List Diagnostic) :
    (q.addAll ds).kept.Sublist (q.kept ++ ds) := by
  induction ds generalizing q with
  | nil => simp [addAll]
  | cons d ds ih =>
    have hadd := (q.kept_add_sublist d).append_right ds
    rw [List.append_assoc, List.singleton_append] at hadd
    exact (ih (q.add d)).trans hadd

theorem kept_ofList_sublist (config : QueueConfig) (ds : List Diagnostic) :
    (ofList config ds).kept.Sublist ds :=
  kept_addAll_sublist (new config) ds

theorem flushed_ofList (config : QueueConfig) (ds : List Diagnostic) :
    ∃ rest, (ofList config ds).flushed = (ofList config ds).kept ++ rest ∧
      (rest = [] ∨ ds ≠ [] ∧ ∃ n, rest = [.tooMany config.errorLimit n]) := by
  refine ⟨_, rfl, ?_⟩
  split
  · next hpos =>
    refine .inr ⟨?_, (ofList config ds).suppressed, ?_⟩
    · rintro rfl
      exact Nat.lt_irrefl 0 hpos
    · rw [ofList, config_addAll, new]
  · exact .inl rfl

end Queue

end Reversible
