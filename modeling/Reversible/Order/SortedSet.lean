/-! # Sorted sets

A finite set is the strictly ascending list of its members, so two sets with the
same members are the same value and equality is decided by comparing lists.
-/

namespace Reversible

/-- A finite set, held as the strictly ascending list of its members. -/
structure SortedSet (α : Type) [Ord α] where
  toList : List α
  ascending : toList.Pairwise fun a b => compare a b = .lt
deriving DecidableEq

namespace SortedSet

variable {α : Type} [Ord α]

instance : Membership α (SortedSet α) := ⟨fun s a => a ∈ s.toList⟩

theorem mem_toList {s : SortedSet α} {a : α} : a ∈ s.toList ↔ a ∈ s := Iff.rfl

instance [DecidableEq α] (a : α) (s : SortedSet α) : Decidable (a ∈ s) :=
  inferInstanceAs (Decidable (a ∈ s.toList))

def empty : SortedSet α := ⟨[], .nil⟩

instance : EmptyCollection (SortedSet α) := ⟨empty⟩

instance : Inhabited (SortedSet α) := ⟨empty⟩

@[simp] theorem not_mem_empty (a : α) : a ∉ (∅ : SortedSet α) := List.not_mem_nil

def singleton (a : α) : SortedSet α := ⟨[a], by simp⟩

@[simp] theorem mem_singleton {a b : α} : a ∈ singleton b ↔ a = b := List.mem_singleton

def isEmpty (s : SortedSet α) : Bool := s.toList.isEmpty

def size (s : SortedSet α) : Nat := s.toList.length

/-- Put `a` in its place, unless an equal element is there. -/
def insertItem (a : α) : List α → List α
  | [] => [a]
  | b :: rest =>
    match compare a b with
    | .lt => a :: b :: rest
    | .eq => b :: rest
    | .gt => b :: insertItem a rest

theorem of_mem_insertItem {a c : α} {l : List α} (h : c ∈ insertItem a l) : c = a ∨ c ∈ l := by
  induction l with
  | nil => exact .inl (List.mem_singleton.1 h)
  | cons b rest ih =>
    simp only [insertItem] at h
    split at h
    · simpa using h
    · exact .inr h
    · rcases List.mem_cons.1 h with rfl | h
      · simp
      · exact (ih h).imp_right (List.mem_cons_of_mem b)

theorem mem_insertItem [Std.LawfulEqOrd α] {a c : α} {l : List α} :
    c ∈ insertItem a l ↔ c = a ∨ c ∈ l := by
  refine ⟨of_mem_insertItem, fun h => ?_⟩
  induction l with
  | nil => simpa [insertItem] using h
  | cons b rest ih =>
    simp only [insertItem]
    split
    · simpa using h
    · next hab =>
      obtain rfl := Std.LawfulEqOrd.eq_of_compare hab
      rcases h with rfl | h
      · exact List.mem_cons_self
      · exact h
    · rcases h with rfl | h
      · exact List.mem_cons_of_mem _ (ih (.inl rfl))
      · rcases List.mem_cons.1 h with rfl | h
        · exact List.mem_cons_self
        · exact List.mem_cons_of_mem _ (ih (.inr h))

theorem pairwise_insertItem [Std.TransOrd α] {a : α} {l : List α}
    (h : l.Pairwise fun a b => compare a b = .lt) :
    (insertItem a l).Pairwise fun a b => compare a b = .lt := by
  induction l with
  | nil => simp [insertItem]
  | cons b rest ih =>
    obtain ⟨hb, hrest⟩ := List.pairwise_cons.1 h
    simp only [insertItem]
    split
    · next hab =>
      refine List.pairwise_cons.2 ⟨fun c hc => ?_, h⟩
      rcases List.mem_cons.1 hc with rfl | hc
      · exact hab
      · exact Std.TransCmp.lt_trans hab (hb c hc)
    · exact h
    · next hab =>
      refine List.pairwise_cons.2 ⟨fun c hc => ?_, ih hrest⟩
      rcases of_mem_insertItem hc with rfl | hc
      · exact Std.OrientedCmp.lt_of_gt hab
      · exact hb c hc

section Ordered

variable [Std.TransOrd α]

def insert (a : α) (s : SortedSet α) : SortedSet α :=
  ⟨insertItem a s.toList, pairwise_insertItem s.ascending⟩

def ofList (l : List α) : SortedSet α := l.foldl (fun s a => s.insert a) ∅

def union (s t : SortedSet α) : SortedSet α := t.toList.foldl (fun s a => s.insert a) s

instance : Union (SortedSet α) := ⟨union⟩

def filter (p : α → Bool) (s : SortedSet α) : SortedSet α :=
  ⟨s.toList.filter p, s.ascending.filter p⟩

instance [DecidableEq α] : Inter (SortedSet α) := ⟨fun s t => s.filter fun a => a ∈ t⟩

instance [DecidableEq α] : SDiff (SortedSet α) := ⟨fun s t => s.filter fun a => a ∉ t⟩

end Ordered

section Laws

variable [Std.TransOrd α] [Std.LawfulEqOrd α]

@[simp] theorem mem_insert {a b : α} {s : SortedSet α} : a ∈ s.insert b ↔ a = b ∨ a ∈ s :=
  mem_insertItem

theorem mem_foldl_insert {a : α} {l : List α} {s : SortedSet α} :
    a ∈ l.foldl (fun s a => s.insert a) s ↔ a ∈ s ∨ a ∈ l := by
  induction l generalizing s with
  | nil => simp
  | cons b rest ih => simp [ih, or_assoc, or_comm, or_left_comm]

@[simp] theorem mem_ofList {a : α} {l : List α} : a ∈ ofList l ↔ a ∈ l := by
  simp [ofList, mem_foldl_insert]

@[simp] theorem mem_union {a : α} {s t : SortedSet α} : a ∈ s ∪ t ↔ a ∈ s ∨ a ∈ t :=
  mem_foldl_insert

theorem eq_of_mem_iff {l m : List α} (hl : l.Pairwise fun a b => compare a b = .lt)
    (hm : m.Pairwise fun a b => compare a b = .lt) (h : ∀ a, a ∈ l ↔ a ∈ m) : l = m := by
  induction l generalizing m with
  | nil => exact (List.eq_nil_iff_forall_not_mem.2 fun a ha => List.not_mem_nil ((h a).2 ha)).symm
  | cons a l ih =>
    obtain ⟨ha, hl'⟩ := List.pairwise_cons.1 hl
    cases m with
    | nil => exact absurd ((h a).1 List.mem_cons_self) List.not_mem_nil
    | cons b m =>
      obtain ⟨hb, hm'⟩ := List.pairwise_cons.1 hm
      have hab : a = b := by
        rcases List.mem_cons.1 ((h a).1 List.mem_cons_self) with h' | h'
        · exact h'
        · rcases List.mem_cons.1 ((h b).2 List.mem_cons_self) with h'' | h''
          · exact h''.symm
          · exact absurd (hb a h') (Std.OrientedCmp.not_lt_of_lt (ha b h''))
      subst hab
      have irrefl : ∀ c, compare a c = .lt → c ≠ a := by
        rintro c hc rfl
        simp at hc
      congr 1
      refine ih hl' hm' fun c => ⟨fun hc => ?_, fun hc => ?_⟩
      · exact (List.mem_cons.1 ((h c).1 (List.mem_cons_of_mem a hc))).resolve_left
          (irrefl c (ha c hc))
      · exact (List.mem_cons.1 ((h c).2 (List.mem_cons_of_mem a hc))).resolve_left
          (irrefl c (hb c hc))

theorem ext {s t : SortedSet α} (h : ∀ a, a ∈ s ↔ a ∈ t) : s = t := by
  obtain ⟨l, hl⟩ := s
  obtain ⟨m, hm⟩ := t
  obtain rfl := eq_of_mem_iff hl hm h
  rfl

end Laws

end SortedSet

end Reversible
