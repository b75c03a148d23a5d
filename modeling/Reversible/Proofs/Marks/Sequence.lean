import Reversible.Proofs.Marks.Table

/-! # Paths marked one after the other

Whether a path can be marked, and what is wrong with it otherwise, is known from the types. A path
that can be marked is found marked if and only if it overlaps one that was marked before. So a path
that cannot be marked makes no difference to the others, although references on its way are opened.
-/

namespace Reversible

/-- The type of the value that steps lead to from the place `here`, which holds one of type `ty`. -/
def TypeTable.typeAt (types : TypeTable) :
    MemoryPath → List MemorySegment → Ty → Except PlaceError Ty
  | _, [], ty => .ok ty
  | here, .deref :: rest, ty =>
    match types.resolve ty with
    | .ok (.reference base) =>
      match MarkTree.unmarked types base with
      | .error e => .error (.type e)
      | .ok _ => types.typeAt (here.push .deref) rest base
    | _ => .error (.notAReference here)
  | here, .member name :: rest, ty =>
    match types.resolve ty with
    | .ok (.record members) =>
      match members.lookup name with
      | none => .error (.unknownMember here name)
      | some of => types.typeAt (here.push (.member name)) rest of
    | _ => .error (.notARecord here name)

def Environment.typeAt (env : Environment) (p : MemoryPath) : Except PlaceError Ty :=
  match env.layout with
  | .error e => .error (.type e)
  | .ok l =>
    match l.leafAt p.resource with
    | .error e => .error e
    | .ok (.reference base) =>
      env.types.typeAt (.ofResource p.resource) p.segments (.reference base)
    | .ok _ => .error (.notAReference (.ofResource p.resource))

theorem TypeTable.typeAt_eq_ok_iff {types : TypeTable} {ty ty' : Ty} (hu : types.Unfolds ty)
    {here : MemoryPath} {steps : List MemorySegment} :
    types.typeAt here steps ty = .ok ty' ↔ types.Leads ty steps ty' := by
  constructor
  · intro h
    induction steps generalizing ty here with
    | nil =>
      obtain rfl := Except.ok.inj h
      exact .here
    | cons step rest ih =>
      cases step with
      | deref =>
        rw [typeAt] at h
        split at h
        · next base hr =>
          split at h
          · cases h
          · next target hb =>
            have hub := MarkTree.exists_unmarked_iff.mp ⟨target, hb⟩
            exact .deref (resolves_of_resolve hr) hub (ih hub h)
        · cases h
      | member name =>
        rw [typeAt] at h
        split at h
        · next members hr =>
          split at h
          · cases h
          · next of hof =>
            have hres := resolves_of_resolve hr
            exact .member hres hof (ih ((Leads.member hres hof .here).unfolds hu) h)
        · cases h
  · intro h
    induction h generalizing here with
    | here => rfl
    | deref hr hub _ ih =>
      obtain ⟨target, hb⟩ := MarkTree.exists_unmarked_iff.mpr hub
      simp only [typeAt, hu.resolve_eq hr, hb]
      exact ih hub
    | member hr hof _ ih =>
      simp only [typeAt, hu.resolve_eq hr, hof]
      exact ih ((Leads.member hr hof .here).unfolds hu)

theorem Environment.typeAt_eq_ok_iff {env : Environment} {p : MemoryPath} {ty : Ty} :
    env.typeAt p = .ok ty ↔ env.Leads p ty := by
  rw [typeAt]
  cases hl : env.layout with
  | error e => simp [Leads, hl]
  | ok l =>
    rw [leads_iff hl]
    cases hb : l.leafAt p.resource with
    | error e => simp [hb]
    | ok held =>
      cases held with
      | reference base =>
        have hu : env.types.Unfolds (.reference base) := .plain rfl
        simp [hb, TypeTable.typeAt_eq_ok_iff hu]
      | _ => simp [hb]

/-- Whether steps can be followed in a tree, and why not, is known from the type. -/
theorem MarkTree.Fits.map_follow {types : TypeTable} {t : MarkTree} {ty : Ty}
    (h : Fits types t ty) (hu : types.Unfolds ty) (f : MarkTree → MarkTree) (here : MemoryPath)
    (steps : List MemorySegment) : (follow types f here steps t).2.map (fun _ => ()) =
      (types.typeAt here steps ty).map fun _ => () := by
  induction steps generalizing t ty here with
  | nil => rfl
  | cons step rest ih =>
    cases step with
    | deref =>
      cases h with
      | @leaf marked ty builtin hr hb =>
        simp only [TypeTable.typeAt, hu.resolve_eq hr]
        cases builtin with
        | int | comparison | unit => rfl
        | _ => cases hb
      | record hr hnames hall =>
        simp only [TypeTable.typeAt, hu.resolve_eq hr]
        rfl
      | @closed marked ty base hr =>
        simp only [follow, TypeTable.typeAt, hu.resolve_eq hr]
        cases hb : unmarked types base with
        | error e => rfl
        | ok target =>
          obtain ⟨hub, hft, -⟩ := blank_of_unmarked hb
          cases marked with
          | false => exact ih hft hub _
          | true => exact ih hft.setMarked hub _
      | @opened marked ty base target hr hub ht hm =>
        obtain ⟨blank, hb⟩ := exists_unmarked_iff.mpr hub
        simp only [follow, TypeTable.typeAt, hu.resolve_eq hr, hb]
        exact ih ht hub _
    | member name =>
      cases h with
      | @leaf marked ty builtin hr hb =>
        simp only [TypeTable.typeAt, hu.resolve_eq hr]
        cases builtin with
        | int | comparison | unit => rfl
        | _ => cases hb
      | closed hr =>
        simp only [TypeTable.typeAt, hu.resolve_eq hr]
        rfl
      | opened hr _ _ _ =>
        simp only [TypeTable.typeAt, hu.resolve_eq hr]
        rfl
      | @record ty members tys hr hnames hall =>
        simp only [follow, TypeTable.typeAt, hu.resolve_eq hr]
        cases hlook : members.lookup name with
        | none =>
          have hnone : tys.lookup name = none := by
            rw [Option.eq_none_iff_forall_ne_some]
            intro of hof
            obtain ⟨t, ht⟩ := exists_lookup_of_names hnames.symm hof
            cases hlook.symm.trans ht
          rw [onMember_eq_none _ hlook, hnone]
          rfl
        | some t =>
          obtain ⟨of, hof⟩ := exists_lookup_of_names hnames hlook
          obtain ⟨members', hm, -⟩ :=
            exists_onMember (follow types f (here.push (.member name)) rest) hlook
          rw [hm, hof]
          exact ih (hall name t of hlook hof) ((TypeTable.Leads.member hr hof .here).unfolds hu) _

namespace MarkTable

variable {env : Environment} {l : Layout Ty} {t t' : MarkTable} {p : MemoryPath}
  {done done' : List MemoryPath}

/-- What becomes of a table when paths are marked in it one after the other. -/
def marked (t : MarkTable) (paths : List MemoryPath) : MarkTable :=
  paths.foldl (fun t p => (t.mark p).1) t

/-- What is answered when paths are marked one after the other. -/
def answers : MarkTable → List MemoryPath → List (Except PlaceError Bool)
  | _, [] => []
  | t, p :: rest => (t.mark p).2 :: (t.mark p).1.answers rest

/-- The paths that are marked without an error, when they are marked one after the other. -/
def accepted : MarkTable → List MemoryPath → List MemoryPath
  | _, [] => []
  | t, p :: rest =>
    if (t.mark p).2.isOk then p :: (t.mark p).1.accepted rest else (t.mark p).1.accepted rest

theorem Records.congr (h : Records env l t done) (hd : ∀ p, p ∈ done ↔ p ∈ done') :
    Records env l t done' where
  fits := h.fits
  leads p hp := h.leads p ((hd p).mpr hp)
  marks_iff q hq := by
    rw [h.marks_iff q hq]
    simp only [hd]

section Environment

variable (hl : env.layout = .ok l)
include hl

theorem map_mark (h : t.Fits env.types l) (p : MemoryPath) :
    (t.mark p).2.map (fun _ => ()) = (env.typeAt p).map fun _ => () := by
  simp only [Environment.typeAt, hl]
  by_cases hb : ∃ base, l.leafAt p.resource = .ok (.reference base)
  · obtain ⟨base, hb⟩ := hb
    obtain ⟨tree, ht, hf⟩ := h.reference p.resource base hb
    have hfollow :=
      hf.map_follow (.plain rfl) MarkTree.setMarked (.ofResource p.resource) p.segments
    simp only [mark, ht, h.types_eq, hb, ← hfollow]
    cases (tree.follow env.types MarkTree.setMarked (.ofResource p.resource) p.segments).2 <;> rfl
  · rw [mark, h.rest p.resource (not_exists.mp hb)]
    cases hleaf : l.leafAt p.resource with
    | error e => rfl
    | ok ty =>
      cases ty with
      | reference base => exact absurd ⟨base, hleaf⟩ hb
      | _ => rfl

theorem isOk_mark (h : t.Fits env.types l) (p : MemoryPath) :
    (t.mark p).2.isOk = (env.typeAt p).isOk := by
  have hmap := map_mark hl h p
  cases hm : (t.mark p).2 <;> cases hty : env.typeAt p <;> simp_all [Except.map] <;> rfl

variable (he : env.isProper)
include he

/-- One path more: what is answered, and which paths are marked then. -/
theorem Records.step (h : Records env l t done) (p : MemoryPath) :
    (t.mark p).2 = ((env.typeAt p).map fun _ => decide (∃ d ∈ done, d.Overlaps p)) ∧
      Records env l (t.mark p).1 (if (env.typeAt p).isOk then p :: done else done) := by
  cases hty : env.typeAt p with
  | ok ty =>
    obtain ⟨⟨twice, htwice, hiff⟩, hrec⟩ := h.mark hl he (Environment.typeAt_eq_ok_iff.mp hty)
    simp only [htwice, Except.map, ← hiff, Bool.decide_eq_true, true_and]
    exact hrec
  | error e =>
    have hno : ∀ ty, ¬ env.Leads p ty := fun ty hp => by
      cases hty.symm.trans (Environment.typeAt_eq_ok_iff.mpr hp)
    obtain ⟨⟨e', herror⟩, hfits, hmarks⟩ := mark_of_not_leads hl h.fits hno
    have hmap := map_mark hl h.fits p
    rw [herror, hty] at hmap
    obtain rfl : e' = e := by simpa [Except.map] using hmap
    constructor
    · exact herror
    · change Records env l (t.mark p).1 done
      exact ⟨hfits, h.leads, fun q hq => by rw [hmarks q hq, h.marks_iff q hq]⟩

theorem Records.accepted_eq (h : Records env l t done) (paths : List MemoryPath) :
    t.accepted paths = paths.filter fun p => (env.typeAt p).isOk := by
  induction paths generalizing t done with
  | nil => rfl
  | cons p rest ih =>
    rw [accepted, isOk_mark hl h.fits, ih (h.step hl he p).2, List.filter_cons]

theorem Records.marked (h : Records env l t done) (paths : List MemoryPath) :
    Records env l (t.marked paths) (t.accepted paths ++ done) := by
  induction paths generalizing t done with
  | nil => exact h
  | cons p rest ih =>
    have hrest := ih (h.step hl he p).2
    rw [accepted, isOk_mark hl h.fits]
    refine hrest.congr fun q => ?_
    split <;> simp [or_left_comm]

theorem Records.answers_eq (h : Records env l t done) (paths : List MemoryPath) :
    t.answers paths = paths.mapIdx fun k p => (env.typeAt p).map fun _ =>
      decide (∃ d ∈ t.accepted (paths.take k) ++ done, d.Overlaps p) := by
  induction paths generalizing t done with
  | nil => rfl
  | cons p rest ih =>
    obtain ⟨hanswer, hrec⟩ := h.step hl he p
    rw [answers, hanswer, ih hrec, List.mapIdx_cons]
    simp only [List.take_zero, List.take_succ_cons, accepted, List.nil_append,
      isOk_mark hl h.fits]
    congr 2
    funext k q
    congr 1
    funext _
    rw [decide_eq_decide]
    split <;> simp [or_and_right, exists_or, or_left_comm]

/-- What is answered depends on the paths marked before, not on how the tables were unfolded. -/
theorem Records.answers_congr (h : Records env l t done) (h' : Records env l t' done)
    (paths : List MemoryPath) : t.answers paths = t'.answers paths := by
  rw [h.answers_eq hl he, h'.answers_eq hl he]
  simp only [h.accepted_eq hl he, h'.accepted_eq hl he]

theorem Records.answers_eraseIdx (h : Records env l t done) (paths : List MemoryPath) {k : Nat}
    {e : PlaceError} (hk : (t.answers paths)[k]? = some (.error e)) :
    t.answers (paths.eraseIdx k) = (t.answers paths).eraseIdx k := by
  induction paths generalizing t done k with
  | nil => cases hk
  | cons p rest ih =>
    obtain ⟨hanswer, hrec⟩ := h.step hl he p
    cases k with
    | zero =>
      obtain hk : (t.mark p).2 = .error e := Option.some.inj hk
      have hok : ¬ (env.typeAt p).isOk := by
        rw [← isOk_mark hl h.fits, hk]
        exact Bool.false_ne_true
      rw [if_neg hok] at hrec
      exact h.answers_congr hl he hrec rest
    | succ k => exact congrArg ((t.mark p).2 :: ·) (ih hrec hk)

end Environment

/-- A path is refused for a reason that is known from the types. One that is not refused is found
marked if and only if it overlaps an earlier one that was not refused. A refused path has no effect
on the answers to later ones. -/
theorem answers_by_overlap (he : env.isProper) (hb : blank env = .ok t) (paths : List MemoryPath) :
    (t.answers paths = paths.mapIdx fun k p => (env.typeAt p).map fun _ =>
      decide (∃ d ∈ t.accepted (paths.take k), d.Overlaps p)) ∧
    ∀ k e, (t.answers paths)[k]? = some (.error e) →
      t.answers (paths.eraseIdx k) = (t.answers paths).eraseIdx k := by
  obtain ⟨l, hl, hrec⟩ := exists_records_of_blank hb
  constructor
  · simpa only [List.append_nil] using hrec.answers_eq hl he paths
  · intro k e hk
    exact hrec.answers_eraseIdx hl he paths hk

end MarkTable

namespace Outline

/-- A corner has a position and a reference to the next corner. -/
def corner : Ty :=
  .record [("pos", .record [("x", .int), ("y", .int)]), ("next", .reference (.named "Corner"))]

def env : Environment where
  types := (∅ : NameMap Ty).insert "Corner" corner
  vars := ((∅ : NameMap Ty).insert "p" (.reference (.named "Corner"))).insert "q"
    (.reference (.named "Corner"))

def blank : MarkTable where
  types := env.types
  slots := .leaf "p" (some (.pointingTo (.named "Corner"))) <|
    .leaf "q" (some (.pointingTo (.named "Corner"))) .nil

theorem isProper_env : env.isProper := by decide +kernel

theorem blank_env : MarkTable.blank env = .ok blank := by decide +kernel

/-- The place that steps lead to from the corner that a variable refers to. -/
def place (name : Name) (steps : List MemorySegment) : MemoryPath :=
  ⟨.ofVariable name, .deref :: steps⟩

def calls : List MemoryPath :=
  [place "p" [.member "next", .deref, .member "pos", .member "x"],
    place "p" [.member "next", .deref, .member "color"],
    place "p" [.member "next"],
    place "p" [.member "next", .deref, .member "next", .deref, .member "pos"],
    place "p" [.member "pos"],
    place "q" [.member "next"]]

/-- A corner has no color. Asking for one opens the reference to it, which makes no difference when
the reference is marked and then what lies behind it. -/
theorem answers_by_overlap_outline : env.isProper ∧ MarkTable.blank env = .ok blank ∧
    blank.answers calls =
      [.ok false, .error (.unknownMember (place "p" [.member "next", .deref]) "color"), .ok true,
        .ok true, .ok false, .ok false] ∧
    blank.answers (calls.eraseIdx 1) = [.ok false, .ok true, .ok true, .ok false, .ok false] := by
  obtain ⟨hanswers, herase⟩ := MarkTable.answers_by_overlap isProper_env blank_env calls
  have heq : blank.answers calls =
      [.ok false, .error (.unknownMember (place "p" [.member "next", .deref]) "color"), .ok true,
        .ok true, .ok false, .ok false] := hanswers.trans (by decide +kernel)
  exact ⟨isProper_env, blank_env, heq, (herase 1 _ (by rw [heq]; rfl)).trans (by rw [heq]; rfl)⟩

end Outline

end Reversible
