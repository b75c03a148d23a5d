import Reversible.Proofs.Layout.Leaves

/-! # Ordering layouts

A relation of values is lifted to layouts leaf by leaf. A layout that ends early is above those
that go on, so combining layouts slot by slot, which drops slots without partner, gives a least
upper bound. Changing the values at a path keeps the order if the change of values does.
-/

namespace Reversible

variable {α β γ : Type}

/-- The values of the first layout are related to those of the second wherever that has a leaf. -/
inductive Layout.Le (R : α → β → Prop) : Layout α → Layout β → Prop where
  | nil (l : Layout α) : Le R l .nil
  | leaf {key : Name} {v : α} {w : β} {l : Layout α} {m : Layout β} :
      R v w → Le R l m → Le R (.leaf key v l) (.leaf key w m)
  | node {key : Name} {ms l : Layout α} {ns m : Layout β} :
      Le R ms ns → Le R l m → Le R (.node key ms l) (.node key ns m)

inductive Slot.Le (R : α → β → Prop) : Slot α → Slot β → Prop where
  | leaf {v : α} {w : β} : R v w → Le R (.leaf v) (.leaf w)
  | inner {ms : Layout α} {ns : Layout β} : Layout.Le R ms ns → Le R (.inner ms) (.inner ns)

namespace Layout

variable {R : α → β → Prop} {S : α → α → Prop} {l m n : Layout α}

theorem Le.refl (hS : ∀ v, S v v) (l : Layout α) : Le S l l := by
  induction l with
  | nil => exact .nil _
  | leaf key v rest ih => exact .leaf (hS v) ih
  | node key ms rest ihm ih => exact .node ihm ih

theorem Le.trans (hS : ∀ u v w, S u v → S v w → S u w) (h : Le S l m) (h' : Le S m n) :
    Le S l n := by
  induction h' generalizing l with
  | nil => exact .nil _
  | leaf hv _ ih =>
    cases h with
    | leaf hu hr => exact .leaf (hS _ _ _ hu hv) (ih hr)
  | node _ _ ihm ih =>
    cases h with
    | node hm hr => exact .node (ihm hm) (ih hr)

theorem Le.antisymm (hS : ∀ v w, S v w → S w v → v = w) (h : Le S l m) (h' : Le S m l) :
    l = m := by
  induction h with
  | nil l => cases h'; rfl
  | leaf hv _ ih =>
    cases h' with
    | leaf hw hr => rw [hS _ _ hv hw, ih hr]
  | node _ _ ihm ih =>
    cases h' with
    | node hm hr => rw [ihm hm, ih hr]

theorem Le.cons {key : Name} {s : Slot α} {t : Slot β} {l : Layout α} {m : Layout β}
    (hs : Slot.Le R s t) (h : Le R l m) : Le R (cons key s l) (cons key t m) := by
  cases hs with
  | leaf hv => exact .leaf hv h
  | inner hm => exact .node hm h

theorem Le.adjust {l : Layout α} {m : Layout β} {f : Slot α → Slot α} {g : Slot β → Slot β}
    (hfg : ∀ s t, Slot.Le R s t → Slot.Le R (f s) (g t)) (name : Name) (h : Le R l m) :
    Le R (l.adjust name f) (m.adjust name g) := by
  induction h with
  | nil l => exact .nil _
  | @leaf key v w l m hv hr ih =>
    by_cases hk : key = name
    · simpa [Layout.adjust, hk] using Le.cons (hfg _ _ (.leaf hv)) hr
    · simpa [Layout.adjust, hk] using Le.leaf hv ih
  | @node key ms l ns m hm hr _ ih =>
    by_cases hk : key = name
    · simpa [Layout.adjust, hk] using Le.cons (hfg _ _ (.inner hm)) hr
    · simpa [Layout.adjust, hk] using Le.node hm ih

theorem Le.adjustAt {l : Layout α} {m : Layout β} {f : Slot α → Slot α} {g : Slot β → Slot β}
    (hfg : ∀ s t, Slot.Le R s t → Slot.Le R (f s) (g t)) (name : Name) (rest : List Name)
    (h : Le R l m) : Le R (adjustAt f l name rest) (adjustAt g m name rest) := by
  induction rest generalizing l m name with
  | nil => exact h.adjust hfg name
  | cons next rest ih =>
    refine h.adjust (fun s t hst => ?_) name
    cases hst with
    | leaf hv => exact .leaf hv
    | inner hm => exact .inner (ih next hm)

theorem Le.map {l : Layout α} {m : Layout β} {f : α → α} {g : β → β}
    (hfg : ∀ v w, R v w → R (f v) (g w)) (h : Le R l m) : Le R (l.map f) (m.map g) := by
  induction h with
  | nil l => exact .nil _
  | leaf hv _ ih => exact .leaf (hfg _ _ hv) ih
  | node _ _ ihm ih => exact .node ihm ih

theorem Le.modify {l : Layout α} {m : Layout β} {f : α → α} {g : β → β}
    (hfg : ∀ v w, R v w → R (f v) (g w)) (path : ResourcePath) (h : Le R l m) :
    Le R (l.modify path f) (m.modify path g) := by
  refine h.adjustAt (fun s t hst => ?_) path.root path.members
  cases hst with
  | leaf hv => exact .leaf (hfg _ _ hv)
  | inner hm => exact .inner (hm.map hfg)

theorem le_zipWith_left {f : α → α → α} (hS : ∀ v, S v v) (hf : ∀ v w, S v (f v w))
    (l m : Layout α) : Le S l (zipWith f l m) := by
  induction l generalizing m with
  | nil => exact .nil _
  | leaf key v rest ih =>
    cases m with
    | nil => exact .nil _
    | leaf key' w rest' => exact .leaf (hf v w) (ih rest')
    | node key' ns rest' => exact .leaf (hS v) (ih rest')
  | node key ms rest ihm ih =>
    cases m with
    | nil => exact .nil _
    | leaf key' w rest' => exact .node (.refl hS ms) (ih rest')
    | node key' ns rest' => exact .node (ihm ns) (ih rest')

theorem le_zipWith_right {f : α → α → α} (hf : ∀ v w, S w (f v w)) {k : Layout β}
    {T : β → α → Prop} (hl : Le T k l) (hm : Le T k m) : Le S m (zipWith f l m) := by
  induction hl generalizing m with
  | nil => exact .nil _
  | leaf hv _ ih =>
    cases hm with
    | nil => exact .nil _
    | leaf hw hr => exact .leaf (hf _ _) (ih hr)
  | node _ _ ihm ih =>
    cases hm with
    | nil => exact .nil _
    | node hn hr => exact .node (ihm hn) (ih hr)

theorem zipWith_le {f : α → α → α} (hf : ∀ u v w, S u w → S v w → S (f u v) w)
    (h : Le S l n) (h' : Le S m n) : Le S (zipWith f l m) n := by
  induction h generalizing m with
  | nil => exact .nil _
  | leaf hv _ ih =>
    cases h' with
    | leaf hw hr => exact .leaf (hf _ _ _ hv hw) (ih hr)
  | node _ _ ihm ih =>
    cases h' with
    | node hm hr => exact .node (ihm hm) (ih hr)

/-- If `f` gives least upper bounds of values, a layout is below another if combining it with that
adds nothing. -/
theorem le_iff_zipWith {f : α → α → α} (hf : ∀ v w, S v w ↔ f v w = w) :
    Le S l m ↔ zipWith f l m = m := by
  constructor
  · intro h
    induction h with
    | nil l => cases l <;> rfl
    | leaf hv _ ih => rw [zipWith, (hf _ _).mp hv, ih]
    | node _ _ ihm ih => rw [zipWith, ihm, ih]
  · intro h
    induction l generalizing m with
    | nil =>
      rw [zipWith] at h
      exact h ▸ .nil _
    | leaf key v rest ih =>
      cases m with
      | nil => exact .nil _
      | leaf key' w rest' =>
        obtain ⟨rfl, hv, hr⟩ := Layout.leaf.inj h
        exact .leaf ((hf v w).mpr hv) (ih hr)
      | node key' ns rest' => cases h
    | node key ms rest ihm ih =>
      cases m with
      | nil => exact .nil _
      | leaf key' w rest' => cases h
      | node key' ns rest' =>
        obtain ⟨rfl, hm, hr⟩ := Layout.node.inj h
        exact .node (ihm hm) (ih hr)

theorem map_le_of_shape {f : γ → α} (hf : ∀ v w, R (f v) w) {k : Layout γ} {m : Layout β}
    (h : k.shape = m.shape) : Le R (k.map f) m := by
  induction k generalizing m with
  | nil =>
    rw [eq_nil_of_shape h]
    exact .nil _
  | leaf key v rest ih =>
    obtain ⟨w, rest', rfl, hr⟩ := eq_leaf_of_shape h
    exact .leaf (hf v w) (ih hr)
  | node key ms rest ihm ih =>
    obtain ⟨ns, rest', rfl, hm, hr⟩ := eq_node_of_shape h
    exact .node (ihm hm) (ih hr)

theorem Le.getElem? {l : Layout α} {m : Layout β} (h : Le R l m) (hs : l.shape = m.shape) {k : Nat}
    {v : α} (hv : l.values[k]? = some v) : ∃ w, m.values[k]? = some w ∧ R v w := by
  induction h generalizing k with
  | nil l =>
    rw [eq_nil_of_shape hs.symm] at hv
    simp [values] at hv
  | leaf hvw _ ih =>
    cases k with
    | zero =>
      obtain rfl := Option.some.inj hv
      exact ⟨_, rfl, hvw⟩
    | succ k => exact ih (Layout.leaf.inj hs).2.2 hv
  | @node key ms l ns m _ _ ihm ih =>
    obtain ⟨-, hm, hr⟩ := Layout.node.inj hs
    have hlen := length_values_congr hm
    rw [values, List.getElem?_append] at hv ⊢
    rw [← hlen]
    split at hv
    · next hk =>
      rw [if_pos hk]
      exact ihm hm hv
    · next hk =>
      rw [if_neg hk]
      exact ih hr hv

end Layout

end Reversible
