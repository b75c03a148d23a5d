import Reversible.Order.NameMap
import Reversible.Order.SortedSet

/-! # The names of a map

In a list of named values a name stands for the first value that has it. A map lists its names in
ascending order, so two maps with the same names list them alike. A map that is filled from a list
has the names of the items of that list.
-/

namespace Reversible

section Lookup

variable {α β : Type} {l : List (Name × α)} {name : Name} {value : α}

theorem mem_of_lookup (h : l.lookup name = some value) : (name, value) ∈ l := by
  obtain ⟨before, after, rfl, -⟩ := List.lookup_eq_some_iff.mp h
  exact List.mem_append_right before List.mem_cons_self

theorem lookup_of_mem (hn : (l.map (·.1)).Nodup) (h : (name, value) ∈ l) :
    l.lookup name = some value := by
  obtain ⟨before, after, rfl⟩ := List.append_of_mem h
  rw [List.map_append, List.nodup_append] at hn
  refine List.lookup_eq_some_iff.mpr ⟨before, after, rfl, fun e he => ?_⟩
  have hne : e.1 ≠ name := hn.2.2 e.1 (List.mem_map_of_mem he) name (by simp)
  simp [hne.symm]

theorem exists_lookup_iff : (∃ value, l.lookup name = some value) ↔ name ∈ l.map (·.1) := by
  rw [← Option.isSome_iff_exists, List.lookup_isSome_iff, List.mem_map]
  simp only [beq_iff_eq, @eq_comm Name name]

theorem exists_lookup_of_names {m : List (Name × β)} (hn : l.map (·.1) = m.map (·.1))
    (h : l.lookup name = some value) : ∃ value, m.lookup name = some value := by
  rw [exists_lookup_iff, ← hn, ← exists_lookup_iff]
  exact ⟨value, h⟩

end Lookup

namespace NameMap

variable {α β : Type}

theorem mem_keys_iff {m : NameMap α} {name : Name} : name ∈ m.keys ↔ m.contains name := by
  rw [contains, get?, Option.isSome_iff_exists, exists_lookup_iff, keys]

theorem nodup_keys (m : NameMap α) : m.keys.Nodup := by
  refine List.pairwise_map.mpr (m.ascending.imp fun {a b} h he => ?_)
  rw [he] at h
  simp at h

theorem mem_entries_iff {m : NameMap α} {name : Name} {value : α} :
    (name, value) ∈ m.entries ↔ m.get? name = some value :=
  ⟨lookup_of_mem m.nodup_keys, mem_of_lookup⟩

theorem entries_eq_of_mem_iff {l l' : List (Name × α)}
    (hl : l.Pairwise fun a b => compare a.1 b.1 = .lt)
    (hl' : l'.Pairwise fun a b => compare a.1 b.1 = .lt) (h : ∀ e, e ∈ l ↔ e ∈ l') : l = l' := by
  have hne : ∀ {a b : Name × α}, compare a.1 b.1 = .lt → a ≠ b := by
    rintro a _ hlt rfl
    simp at hlt
  have hp : l.Perm l' := (List.perm_ext_iff_of_nodup (hl.imp hne) (hl'.imp hne)).mpr h
  refine hp.eq_of_pairwise (fun a b _ _ hab hba => ?_) hl hl'
  cases hab.symm.trans (Std.OrientedCmp.gt_of_lt hba)

theorem keys_eq_of_mem_iff {m : NameMap α} {n : NameMap β}
    (h : ∀ name, name ∈ m.keys ↔ name ∈ n.keys) : m.keys = n.keys :=
  SortedSet.eq_of_mem_iff (List.pairwise_map.mpr m.ascending) (List.pairwise_map.mpr n.ascending) h

section Filling

variable (key : β → Name) (value : β → α)

theorem mem_keys_foldl_insertNew {l : List β} {m : NameMap α} {name : Name} :
    name ∈ (l.foldl (fun m b => m.insertNew (key b) (value b)) m).keys ↔
      name ∈ m.keys ∨ ∃ b ∈ l, key b = name := by
  induction l generalizing m with
  | nil => simp
  | cons b l ih =>
    rw [List.foldl_cons, ih, mem_keys_iff, mem_keys_iff, contains, get?_insertNew]
    by_cases h : name = key b
    · simp [h]
    · simp [h, Ne.symm h, contains]

theorem get?_foldl_insertNew (l : List β) (m : NameMap α) (name : Name) :
    (l.foldl (fun m b => m.insertNew (key b) (value b)) m).get? name =
      (m.get? name).or ((l.find? fun b => key b = name).map value) := by
  induction l generalizing m with
  | nil => simp
  | cons b l ih =>
    rw [List.foldl_cons, ih, get?_insertNew]
    by_cases h : key b = name
    · cases hm : m.get? name <;> simp [h, hm]
    · simp [h, Ne.symm h]

theorem mem_entries_foldl_insertNew {l : List β} {m : NameMap α} {e : Name × α}
    (h : e ∈ (l.foldl (fun m b => m.insertNew (key b) (value b)) m).entries) :
    e ∈ m.entries ∨ ∃ b ∈ l, e = (key b, value b) := by
  induction l generalizing m with
  | nil => exact .inl h
  | cons b l ih =>
    rcases ih h with hm | ⟨c, hc, he⟩
    · simp only [insertNew] at hm
      split at hm
      · exact .inl hm
      · rcases of_mem_insertEntry hm with he | hm
        · exact .inr ⟨b, List.mem_cons_self, he⟩
        · exact .inl hm
    · exact .inr ⟨c, List.mem_cons_of_mem b hc, he⟩

end Filling

end NameMap

end Reversible
