/-! # First occurrences and repetitions -/

namespace Reversible

variable {α κ : Type} [DecidableEq κ]

/-- The elements of a list whose key no element of `before` has and none before them. -/
def firstsAfter (key : α → κ) (before : List α) : List α → List α
  | [] => []
  | a :: rest =>
    if before.any fun b => key b = key a then firstsAfter key before rest
    else a :: firstsAfter key (before ++ [a]) rest

/-- The first element of each key, in order. -/
def firsts (key : α → κ) (l : List α) : List α := firstsAfter key [] l

theorem mem_firstsAfter {before l : List κ} {a : κ} :
    a ∈ firstsAfter id before l ↔ a ∈ l ∧ a ∉ before := by
  induction l generalizing before with
  | nil => simp [firstsAfter]
  | cons b rest ih =>
    by_cases hb : b ∈ before
    · have hne : a ∉ before → a ≠ b := fun h hab => h (hab ▸ hb)
      simp only [firstsAfter, id_eq, List.any_eq_true, decide_eq_true_eq, exists_eq_right, hb,
        if_true, ih, List.mem_cons]
      grind
    · simp only [firstsAfter, id_eq, List.any_eq_true, decide_eq_true_eq, exists_eq_right, hb,
        if_false, List.mem_cons, ih, List.mem_append]
      grind

@[simp] theorem mem_firsts {l : List κ} {a : κ} : a ∈ firsts id l ↔ a ∈ l := by
  simp [firsts, mem_firstsAfter]

theorem nodup_firstsAfter (before l : List κ) : (firstsAfter id before l).Nodup := by
  induction l generalizing before with
  | nil => exact .nil
  | cons b rest ih =>
    rw [firstsAfter]
    split
    · exact ih before
    · refine List.nodup_cons.2 ⟨fun h => ?_, ih _⟩
      simpa using (mem_firstsAfter.1 h).2

theorem nodup_firsts (l : List κ) : (firsts id l).Nodup := nodup_firstsAfter [] l

/-- The elements that have an earlier one of the same key, each after the first of that key,
where `before` are the first elements passed so far. -/
def repeatsAfter (key : α → κ) (before : List α) : List α → List (α × α)
  | [] => []
  | a :: rest =>
    match before.find? fun b => key b = key a with
    | some first => (first, a) :: repeatsAfter key before rest
    | none => repeatsAfter key (before ++ [a]) rest

/-- The repetitions of a list: each element of a key that occurred before, after the first one. -/
def repeats (key : α → κ) (l : List α) : List (α × α) := repeatsAfter key [] l

end Reversible
