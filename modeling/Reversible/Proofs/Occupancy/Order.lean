import Mathlib.Data.List.Perm.Subperm
import Mathlib.Order.Lattice
import Reversible.Occupancy.State

/-! # The order of occupancy

Joining what is known on two ways makes the states of a slot a semilattice with `unknown` at the
bottom and conflicts at the top. Bringing a slot into a state is monotone in that order, and a
state over finitely many causes can only grow finitely often.
-/

namespace Reversible

namespace SortedSet

variable {α : Type} [Ord α]

instance : HasSubset (SortedSet α) := ⟨fun s t => ∀ a ∈ s, a ∈ t⟩

theorem isEmpty_iff {s : SortedSet α} : s.isEmpty = true ↔ ∀ a, a ∉ s := by
  rw [isEmpty, List.isEmpty_iff, List.eq_nil_iff_forall_not_mem]
  rfl

theorem isEmpty_eq_false_iff {s : SortedSet α} : s.isEmpty = false ↔ ∃ a, a ∈ s := by
  rw [← Bool.not_eq_true, isEmpty_iff]
  simp

variable [Std.LawfulEqOrd α]

theorem nodup_toList (s : SortedSet α) : s.toList.Nodup := by
  refine s.ascending.imp ?_
  rintro a _ h rfl
  simp at h

theorem size_le_of_subset {s t : SortedSet α} (h : s ⊆ t) : s.size ≤ t.size :=
  (s.nodup_toList.subperm h).length_le

variable [Std.TransOrd α]

theorem size_lt_of_subset_of_ne {s t : SortedSet α} (h : s ⊆ t) (hne : s ≠ t) :
    s.size < t.size := by
  refine lt_of_le_of_ne (size_le_of_subset h) fun hs => hne (ext fun a => ⟨h a, ?_⟩)
  have hp := (s.nodup_toList.subperm h).perm_of_length_le (le_of_eq hs.symm)
  exact hp.mem_iff.mpr

theorem union_comm (s t : SortedSet α) : s ∪ t = t ∪ s := ext fun a => by simp [or_comm]

theorem union_assoc (s t u : SortedSet α) : s ∪ t ∪ u = s ∪ (t ∪ u) :=
  ext fun a => by simp [or_assoc]

@[simp] theorem union_self (s : SortedSet α) : s ∪ s = s := ext fun a => by simp

@[simp] theorem empty_union (s : SortedSet α) : ∅ ∪ s = s := ext fun a => by simp

@[simp] theorem union_empty (s : SortedSet α) : s ∪ ∅ = s := ext fun a => by simp

theorem union_eq_right_iff {s t : SortedSet α} : s ∪ t = t ↔ s ⊆ t := by
  constructor
  · intro h a ha
    rw [← h]
    exact mem_union.mpr (.inl ha)
  · exact fun h => ext fun a => by simpa using h a

theorem subset_union_right (s t : SortedSet α) : t ⊆ s ∪ t := fun _ ha => mem_union.mpr (.inr ha)

theorem union_subset_union_left {s t : SortedSet α} (h : s ⊆ t) (u : SortedSet α) :
    s ∪ u ⊆ t ∪ u := by
  intro a ha
  exact mem_union.mpr ((mem_union.mp ha).imp_left (h a))

end SortedSet

namespace Occupancy

@[simp] theorem unknown_meet (a : Occupancy) : unknown.meet a = a := by cases a <;> rfl

@[simp] theorem meet_unknown (a : Occupancy) : a.meet unknown = a := by cases a <;> rfl

instance : Max Occupancy := ⟨meet⟩

instance : SemilatticeSup Occupancy := .mk'
  (fun a b => show a.meet b = b.meet a by
    cases a <;> cases b <;> simp [meet, initializers, finalizers, SortedSet.union_comm])
  (fun a b c => show (a.meet b).meet c = a.meet (b.meet c) by
    cases a <;> cases b <;> cases c <;>
      simp [meet, initializers, finalizers, SortedSet.union_assoc])
  (fun a => show a.meet a = a by cases a <;> simp [meet, initializers, finalizers])

@[simp] theorem initializers_meet (a b : Occupancy) :
    (a.meet b).initializers = a.initializers ∪ b.initializers := by
  cases a <;> cases b <;> simp [meet, initializers]

@[simp] theorem finalizers_meet (a b : Occupancy) :
    (a.meet b).finalizers = a.finalizers ∪ b.finalizers := by
  cases a <;> cases b <;> simp [meet, finalizers]

theorem le_iff_meet {a b : Occupancy} : a ≤ b ↔ a.meet b = b := Iff.rfl

theorem unknown_le (a : Occupancy) : unknown ≤ a := unknown_meet a

theorem le_meet_left (a b : Occupancy) : a ≤ a.meet b := le_sup_left

theorem le_meet_right (a b : Occupancy) : b ≤ a.meet b := le_sup_right

theorem meet_le {a b c : Occupancy} (ha : a ≤ c) (hb : b ≤ c) : a.meet b ≤ c := sup_le ha hb

theorem initializers_subset {a b : Occupancy} (h : a ≤ b) : a.initializers ⊆ b.initializers := by
  rw [← SortedSet.union_eq_right_iff, ← initializers_meet, le_iff_meet.mp h]

theorem finalizers_subset {a b : Occupancy} (h : a ≤ b) : a.finalizers ⊆ b.finalizers := by
  rw [← SortedSet.union_eq_right_iff, ← finalizers_meet, le_iff_meet.mp h]

theorem initialized_le_initialized {s t : Causes} : initialized s ≤ initialized t ↔ s ⊆ t := by
  rw [le_iff_meet, ← SortedSet.union_eq_right_iff]
  simp [meet]

theorem finalized_le_finalized {s t : Causes} : finalized s ≤ finalized t ↔ s ⊆ t := by
  rw [le_iff_meet, ← SortedSet.union_eq_right_iff]
  simp [meet]

theorem initialized_le_conflict {s t u : Causes} : initialized s ≤ conflict t u ↔ s ⊆ t := by
  rw [le_iff_meet, ← SortedSet.union_eq_right_iff]
  simp [meet, initializers, finalizers]

theorem finalized_le_conflict {s t u : Causes} : finalized s ≤ conflict t u ↔ s ⊆ u := by
  rw [le_iff_meet, ← SortedSet.union_eq_right_iff]
  simp [meet, initializers, finalizers]

theorem conflict_le_conflict {s t s' t' : Causes} :
    conflict s t ≤ conflict s' t' ↔ s ⊆ s' ∧ t ⊆ t' := by
  rw [le_iff_meet, ← SortedSet.union_eq_right_iff, ← SortedSet.union_eq_right_iff]
  simp [meet, initializers, finalizers]

theorem le_conflict_iff {a : Occupancy} {s t : Causes} :
    a ≤ conflict s t ↔ a.initializers ⊆ s ∧ a.finalizers ⊆ t := by
  constructor
  · exact fun h => ⟨initializers_subset h, finalizers_subset h⟩
  · rintro ⟨hi, hf⟩
    cases a with
    | unknown => exact unknown_le _
    | initialized u => exact initialized_le_conflict.mpr hi
    | finalized u => exact finalized_le_conflict.mpr hf
    | conflict u v => exact conflict_le_conflict.mpr ⟨hi, hf⟩

/-- A state is below another of its kind, and everything but conflicts below conflicts. -/
theorem le_cases {a b : Occupancy} (h : a ≤ b) :
    a = unknown ∨ (∃ s t, a = initialized s ∧ b = initialized t ∧ s ⊆ t) ∨
      (∃ s t, a = finalized s ∧ b = finalized t ∧ s ⊆ t) ∨
      (∃ s t u, a = initialized s ∧ b = conflict t u ∧ s ⊆ t) ∨
      (∃ s t u, a = finalized s ∧ b = conflict t u ∧ s ⊆ u) ∨
      ∃ s t s' t', a = conflict s t ∧ b = conflict s' t' ∧ s ⊆ s' ∧ t ⊆ t' := by
  have hm := le_iff_meet.mp h
  cases a <;> cases b <;>
    simp_all [meet, initialized_le_initialized, finalized_le_finalized, initialized_le_conflict,
      finalized_le_conflict, conflict_le_conflict]

theorem le_overwrite_initialized (a : Occupancy) (u : Causes) :
    initialized u ≤ a.overwrite (initialized u) := by
  cases a with
  | unknown => exact le_rfl
  | initialized s => exact initialized_le_initialized.mpr (SortedSet.subset_union_right s u)
  | finalized s => exact le_rfl
  | conflict s t => exact initialized_le_conflict.mpr (SortedSet.subset_union_right s u)

theorem le_overwrite_finalized (a : Occupancy) (u : Causes) :
    finalized u ≤ a.overwrite (finalized u) := by
  cases a with
  | unknown => exact le_rfl
  | initialized s => exact le_rfl
  | finalized s => exact finalized_le_finalized.mpr (SortedSet.subset_union_right s u)
  | conflict s t => exact finalized_le_conflict.mpr (SortedSet.subset_union_right t u)

theorem overwrite_initialized_le {a b : Occupancy} (h : a ≤ b) (u : Causes) :
    a.overwrite (initialized u) ≤ b.overwrite (initialized u) := by
  rcases le_cases h with rfl | ⟨s, t, rfl, rfl, hs⟩ | ⟨s, t, rfl, rfl, -⟩ |
    ⟨s, t, t', rfl, rfl, hs⟩ | ⟨s, t, t', rfl, rfl, -⟩ |
    ⟨s, s', t, t', rfl, rfl, hs, ht⟩
  · exact le_overwrite_initialized b u
  · exact initialized_le_initialized.mpr (SortedSet.union_subset_union_left hs u)
  · exact le_rfl
  · exact initialized_le_conflict.mpr (SortedSet.union_subset_union_left hs u)
  · exact le_overwrite_initialized _ u
  · exact conflict_le_conflict.mpr ⟨SortedSet.union_subset_union_left hs u,
      SortedSet.union_subset_union_left ht ∅⟩

theorem overwrite_finalized_le {a b : Occupancy} (h : a ≤ b) (u : Causes) :
    a.overwrite (finalized u) ≤ b.overwrite (finalized u) := by
  rcases le_cases h with rfl | ⟨s, t, rfl, rfl, -⟩ | ⟨s, t, rfl, rfl, hs⟩ |
    ⟨s, t, t', rfl, rfl, -⟩ | ⟨s, t, t', rfl, rfl, hs⟩ |
    ⟨s, s', t, t', rfl, rfl, hs, ht⟩
  · exact le_overwrite_finalized b u
  · exact le_rfl
  · exact finalized_le_finalized.mpr (SortedSet.union_subset_union_left hs u)
  · exact le_overwrite_finalized _ u
  · exact finalized_le_conflict.mpr (SortedSet.union_subset_union_left hs u)
  · exact conflict_le_conflict.mpr ⟨SortedSet.union_subset_union_left hs ∅,
      SortedSet.union_subset_union_left ht u⟩

/-- How far a state is above `unknown`. -/
def rank : Occupancy → Nat
  | unknown => 0
  | initialized s => s.size + 1
  | finalized s => s.size + 1
  | conflict s t => s.size + t.size + 2

theorem rank_lt_of_le_of_ne {a b : Occupancy} (h : a ≤ b) (hne : a ≠ b) : a.rank < b.rank := by
  rcases le_cases h with rfl | ⟨s, t, rfl, rfl, hs⟩ | ⟨s, t, rfl, rfl, hs⟩ |
    ⟨s, t, t', rfl, rfl, hs⟩ | ⟨s, t, t', rfl, rfl, hs⟩ |
    ⟨s, s', t, t', rfl, rfl, hs, ht⟩
  · cases b <;> simp_all [rank]
  · have := SortedSet.size_lt_of_subset_of_ne hs (fun he => hne (by rw [he]))
    simpa [rank]
  · have := SortedSet.size_lt_of_subset_of_ne hs (fun he => hne (by rw [he]))
    simpa [rank]
  · have := SortedSet.size_le_of_subset hs
    simp only [rank]
    omega
  · have := SortedSet.size_le_of_subset hs
    simp only [rank]
    omega
  · have h₁ := SortedSet.size_le_of_subset hs
    have h₂ := SortedSet.size_le_of_subset ht
    simp only [rank]
    by_cases he : s = t
    · have := SortedSet.size_lt_of_subset_of_ne ht (fun he' => hne (by rw [he, he']))
      omega
    · have := SortedSet.size_lt_of_subset_of_ne hs he
      omega

theorem rank_le_of_le {a b : Occupancy} (h : a ≤ b) : a.rank ≤ b.rank := by
  by_cases hne : a = b
  · rw [hne]
  · exact (rank_lt_of_le_of_ne h hne).le

end Occupancy

end Reversible
