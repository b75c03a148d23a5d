import Mathlib.Data.List.Pairwise
import Reversible.Proofs.Marks.Sequence

/-! # The places in a difference

A location that is marked in one table only lies in exactly one place of the difference, and the
places do not overlap. A place is in the difference as a whole although only parts of it may be
marked: it suffices for a structure that something of each member is marked.
-/

namespace Reversible

def MemoryPath.CoveredBy (q : MemoryPath) (paths : List MemoryPath) : Prop :=
  ∃ p ∈ paths, p.Covers q

instance (q : MemoryPath) (paths : List MemoryPath) : Decidable (q.CoveredBy paths) :=
  inferInstanceAs (Decidable (∃ p ∈ paths, p.Covers q))

instance : Std.Symm fun p q : MemoryPath => ¬ p.Overlaps q := ⟨fun _ _ h => mt Or.symm h⟩

namespace Environment

variable {env : Environment} {q : MemoryPath} {ty ty' : Ty} {paths : List MemoryPath}

theorem isLocation_of_typeAt (h : env.typeAt q = .ok ty) (hp : ty.isPlain) : env.IsLocation q := by
  refine ⟨ty, ty, typeAt_eq_ok_iff.mp h, .refl ?_, hp⟩
  rintro name rfl
  cases hp

def CoversWhole (env : Environment) (paths : List MemoryPath) (q : MemoryPath) : Prop :=
  ∀ r, env.IsLocation r → q.Covers r → r.CoveredBy paths

def CoversPart (env : Environment) (paths : List MemoryPath) (q : MemoryPath) : Prop :=
  ∃ r, env.IsLocation r ∧ q.Covers r ∧ r.CoveredBy paths

theorem coversWhole_iff (h : env.Leads q ty) : env.CoversWhole paths q ↔
    ∀ rest, env.types.IsLocation ty rest → (q.extend rest).CoveredBy paths := by
  constructor
  · intro hall rest hr
    exact hall _ ((isLocation_extend_iff h).mpr hr) (q.covers_extend rest)
  · rintro hall r hr hcov
    obtain ⟨rest, rfl⟩ := MemoryPath.covers_iff.mp hcov
    exact hall rest ((isLocation_extend_iff h).mp hr)

theorem coversPart_iff (h : env.Leads q ty) : env.CoversPart paths q ↔
    ∃ rest, env.types.IsLocation ty rest ∧ (q.extend rest).CoveredBy paths := by
  constructor
  · rintro ⟨r, hr, hcov, hcovered⟩
    obtain ⟨rest, rfl⟩ := MemoryPath.covers_iff.mp hcov
    exact ⟨rest, (isLocation_extend_iff h).mp hr, hcovered⟩
  · rintro ⟨rest, hr, hcovered⟩
    exact ⟨_, (isLocation_extend_iff h).mpr hr, q.covers_extend rest, hcovered⟩

theorem CoversWhole.push (h : env.CoversWhole paths q) (step : MemorySegment) :
    env.CoversWhole paths (q.push step) :=
  fun r hr hcov => h r hr ((q.covers_push step).trans hcov)

theorem Leads.push_member {name : Name} {tys : List (Name × Ty)} (h : env.Leads q ty)
    (hr : env.types.Resolves ty (.record tys)) (hof : tys.lookup name = some ty') :
    env.Leads (q.push (.member name)) ty' := by
  obtain ⟨l, base, hl, hb, h⟩ := h
  exact ⟨l, base, hl, hb, h.append (.member hr hof .here)⟩

theorem CoversPart.coversWhole (hc : env.CoversPart paths q) (h : env.Leads q ty)
    (hr : env.types.Resolves ty ty') (hb : ty'.isBuiltin) : env.CoversWhole paths q := by
  rw [coversPart_iff h] at hc
  rw [coversWhole_iff h]
  simp only [MarkTree.isLocation_builtin_iff hr hb, forall_eq, exists_eq_left] at hc ⊢
  exact hc

theorem coversWhole_of_members {tys : List (Name × Ty)} (h : env.Leads q ty)
    (hr : env.types.Resolves ty (.record tys))
    (hall : ∀ name of, tys.lookup name = some of → env.CoversWhole paths (q.push (.member name))) :
    env.CoversWhole paths q := by
  refine (coversWhole_iff h).mpr fun rest hl => ?_
  obtain ⟨name, of, rest, rfl, hof, hl⟩ := (TypeTable.isLocation_record_iff hr).mp hl
  have hmember := (coversWhole_iff (h.push_member hr hof)).mp (hall name of hof) rest hl
  rwa [MemoryPath.push_extend] at hmember

end Environment

namespace MarkTable

variable {env : Environment} {t : MarkTable} {q : MemoryPath}

theorem paths_mark (t : MarkTable) (p : MemoryPath) : (t.mark p).1.slots.paths = t.slots.paths :=
  Layout.paths_congr (t.shape_mark p)

theorem paths_marked (t : MarkTable) (paths : List MemoryPath) :
    (t.marked paths).slots.paths = t.slots.paths := by
  induction paths generalizing t with
  | nil => rfl
  | cons p rest ih => exact (ih _).trans (t.paths_mark p)

theorem nodup_paths_of_blank (he : env.isProper) (hb : blank env = .ok t) :
    t.slots.paths.Nodup := by
  obtain ⟨l, hl, rfl⟩ := exists_layout_of_blank hb
  rw [Layout.paths_map]
  exact Environment.nodup_paths he hl

theorem exists_records_marked (he : env.isProper) (hb : blank env = .ok t) :
    ∃ l, env.layout = .ok l ∧
      ∀ paths, Records env l (t.marked paths) (t.accepted paths) := by
  obtain ⟨l, hl, hrec⟩ := exists_records_of_blank hb
  refine ⟨l, hl, fun paths => ?_⟩
  simpa only [List.append_nil] using hrec.marked hl he paths

/-- No location is lost and none is named twice. -/
theorem difference_parts (he : env.isProper) (hb : blank env = .ok t) (as bs : List MemoryPath) :
    (∀ q, env.IsLocation q → q.CoveredBy (t.accepted as) → ¬ q.CoveredBy (t.accepted bs) →
      ∃! d, d ∈ (t.marked as).difference (t.marked bs) ∧ d.Covers q) ∧
    (((t.marked as).difference (t.marked bs)).Pairwise fun d d' => ¬ d.Overlaps d') ∧
    ((t.marked as).difference (t.marked bs) = [] ↔
      ∀ q, env.IsLocation q → q.CoveredBy (t.accepted as) → q.CoveredBy (t.accepted bs)) := by
  obtain ⟨l, hl, hrec⟩ := exists_records_marked he hb
  have hn : (t.marked as).slots.paths.Nodup := t.paths_marked as ▸ nodup_paths_of_blank he hb
  have hapart := (hrec as).fits.pairwise_difference hl he (hrec bs).fits hn
  refine ⟨fun q hq has hbs => ?_, hapart, (hrec as).difference_eq_nil_iff hl he (hrec bs)⟩
  have hm := ((hrec as).marks_iff q hq).mpr has
  have hno := mt ((hrec bs).marks_iff q hq).mp hbs
  obtain ⟨d, hd, hcov⟩ := (hrec as).fits.exists_mem_difference hl he (hrec bs).fits hq hm hno
  refine ⟨d, ⟨hd, hcov⟩, ?_⟩
  rintro d' ⟨hd', hcov'⟩
  by_contra hne
  exact hapart.forall hd' hd hne (MemoryPath.overlaps_of_covers hcov' hcov)

end MarkTable

namespace Outline

def left : List MemoryPath :=
  [place "p" [.member "pos"], place "p" [.member "next", .deref, .member "pos", .member "x"],
    .ofResource (.ofVariable "q")]

def right : List MemoryPath :=
  [place "p" [.member "pos", .member "x"], place "q" [.member "next"]]

/-- What is marked on the left and not on the right: one coordinate, one behind a reference that is
closed on the right, and a reference of which the right has a part. Nothing is the other way. -/
theorem difference_parts_outline : env.isProper ∧ MarkTable.blank env = .ok blank ∧
    (blank.marked left).difference (blank.marked right) =
      [place "p" [.member "pos", .member "y"],
        place "p" [.member "next", .deref, .member "pos", .member "x"],
        .ofResource (.ofVariable "q")] ∧
    (∃! d, d ∈ (blank.marked left).difference (blank.marked right) ∧
      d.Covers (place "q" [.member "pos", .member "x"])) ∧
    ∀ q, env.IsLocation q → q.CoveredBy (blank.accepted right) →
      q.CoveredBy (blank.accepted left) := by
  obtain ⟨hparts, -, -⟩ := MarkTable.difference_parts isProper_env blank_env left right
  obtain ⟨-, -, hnil⟩ := MarkTable.difference_parts isProper_env blank_env right left
  have hx : env.IsLocation (place "q" [.member "pos", .member "x"]) :=
    Environment.isLocation_of_typeAt (show env.typeAt _ = .ok .int by decide +kernel) rfl
  exact ⟨isProper_env, blank_env, by decide +kernel,
    hparts _ hx (by decide +kernel) (by decide +kernel), hnil.mp (by decide +kernel)⟩

end Outline

namespace MarkTable

variable {env : Environment} {l : Layout Ty} {t other : MarkTable} {q : MemoryPath}
  {paths paths' : List MemoryPath}

theorem Records.covers_of_mem_difference (hl : env.layout = .ok l) (he : env.isProper)
    (h : Records env l t paths) (ho : Records env l other paths') (hq : q ∈ t.difference other) :
    ∃ ty, env.Leads q ty ∧
      ((∃ plain, env.types.Resolves ty plain ∧ plain.isPlain ∧ env.CoversWhole paths q) ∨
        ∃ tys, env.types.Resolves ty (.record tys) ∧ ∀ name of, tys.lookup name = some of →
          env.CoversPart paths (q.push (.member name)) ∧
            ¬ env.CoversPart paths' (q.push (.member name))) := by
  obtain ⟨ty, hlead, hex⟩ := h.fits.excess_of_mem_difference hl he ho.fits hq
  have hloc : ∀ rest, env.types.IsLocation ty rest → env.IsLocation (q.extend rest) :=
    fun rest => (Environment.isLocation_extend_iff hlead).mpr
  refine ⟨ty, hlead, ?_⟩
  cases hex with
  | @value plain hr hplain hall hno =>
    refine .inl ⟨plain, hr, hplain, (Environment.coversWhole_iff hlead).mpr fun rest hrest => ?_⟩
    exact (h.marks_iff _ (hloc rest hrest)).mp (hall rest hrest)
  | @record tys hr hall hno =>
    refine .inr ⟨tys, hr, fun name of hof => ?_⟩
    have hmember : ∀ rest, env.types.IsLocation of rest →
        env.types.IsLocation ty (.member name :: rest) := fun rest hrest => hrest.member hr hof
    simp only [Environment.coversPart_iff (hlead.push_member hr hof), MemoryPath.push_extend]
    constructor
    · obtain ⟨rest, hrest, hm⟩ := hall name of hof
      exact ⟨rest, hrest, (h.marks_iff _ (hloc _ (hmember rest hrest))).mp hm⟩
    · rintro ⟨rest, hrest, hcov⟩
      exact hno _ (hmember rest hrest) ((ho.marks_iff _ (hloc _ (hmember rest hrest))).mpr hcov)

/-- Of a structure in a difference each member is covered in part, and none by the paths of the
other table. A place in a difference is covered as a whole if and only if it has no member, itself a
structure or a reference, that is covered in part only. -/
theorem coversWhole_iff_of_mem_difference (he : env.isProper) (hb : blank env = .ok t)
    (as bs : List MemoryPath) (hq : q ∈ (t.marked as).difference (t.marked bs)) :
    ∃ ty, env.Leads q ty ∧
      (∀ tys, env.types.Resolves ty (.record tys) → ∀ name of, tys.lookup name = some of →
        env.CoversPart (t.accepted as) (q.push (.member name)) ∧
          ¬ env.CoversPart (t.accepted bs) (q.push (.member name))) ∧
      (env.CoversWhole (t.accepted as) q ↔
        ∀ tys, env.types.Resolves ty (.record tys) → ∀ name of, tys.lookup name = some of →
          (∀ builtin, env.types.Resolves of builtin → ¬ builtin.isBuiltin) →
          env.CoversWhole (t.accepted as) (q.push (.member name))) := by
  obtain ⟨l, hl, hrec⟩ := exists_records_marked he hb
  obtain ⟨ty, hlead, ⟨plain, hr, hplain, hwhole⟩ | ⟨tys, hr, hpart⟩⟩ :=
    (hrec as).covers_of_mem_difference hl he (hrec bs) hq
  · have hrecord : ∀ tys, ¬ env.types.Resolves ty (.record tys) := by
      intro tys hr'
      obtain rfl := hr.unique hr'
      cases hplain
    refine ⟨ty, hlead, fun tys hr' => absurd hr' (hrecord tys), iff_of_true hwhole ?_⟩
    exact fun tys hr' => absurd hr' (hrecord tys)
  · refine ⟨ty, hlead, fun tys' hr' => ?_, fun hwhole _ _ _ _ _ _ => hwhole.push _, fun hall => ?_⟩
    · obtain ⟨⟩ := hr.unique hr'
      exact hpart
    · -- a member that is a single value is covered as a whole because it is covered in part
      refine Environment.coversWhole_of_members hlead hr fun name of hof => ?_
      by_cases hbuiltin : ∃ builtin, env.types.Resolves of builtin ∧ builtin.isBuiltin
      · obtain ⟨builtin, hres, hbuiltin⟩ := hbuiltin
        exact (hpart name of hof).1.coversWhole (hlead.push_member hr hof) hres hbuiltin
      · exact hall tys hr name of hof fun builtin hres hbi => hbuiltin ⟨builtin, hres, hbi⟩

end MarkTable

namespace Outline

/-- One coordinate of a corner and its reference. -/
def half : List MemoryPath :=
  [place "p" [.member "pos", .member "x"], place "p" [.member "next"]]

theorem difference_half :
    (blank.marked half).difference (blank.marked []) = [place "p" []] := by
  decide +kernel

theorem not_coversWhole_half : ¬ env.CoversWhole (blank.accepted half) (place "p" []) := by
  intro hwhole
  have hy : env.IsLocation (place "p" [.member "pos", .member "y"]) :=
    Environment.isLocation_of_typeAt (show env.typeAt _ = .ok .int by decide +kernel) rfl
  have hcovered := hwhole _ hy (by decide)
  revert hcovered
  decide +kernel

/-- The corner is named as a whole, although one coordinate is not marked. -/
theorem difference_names_unmarked : env.isProper ∧ MarkTable.blank env = .ok blank ∧
    place "p" [] ∈ (blank.marked half).difference (blank.marked []) ∧
    ¬ env.CoversWhole (blank.accepted half) (place "p" []) :=
  ⟨isProper_env, blank_env, difference_half ▸ List.mem_singleton_self _, not_coversWhole_half⟩

theorem coversWhole_iff_of_mem_difference_half : env.isProper ∧ MarkTable.blank env = .ok blank ∧
    place "p" [] ∈ (blank.marked half).difference (blank.marked []) ∧
    ∃ ty, env.Leads (place "p" []) ty ∧
      (∀ tys, env.types.Resolves ty (.record tys) → ∀ name of, tys.lookup name = some of →
        env.CoversPart (blank.accepted half) (place "p" [.member name])) ∧
      ∃ tys name of, env.types.Resolves ty (.record tys) ∧ tys.lookup name = some of ∧
        ¬ env.CoversWhole (blank.accepted half) (place "p" [.member name]) := by
  have hmem : place "p" [] ∈ (blank.marked half).difference (blank.marked []) :=
    difference_half ▸ List.mem_singleton_self _
  obtain ⟨ty, hlead, hpart, hiff⟩ :=
    MarkTable.coversWhole_iff_of_mem_difference isProper_env blank_env half [] hmem
  refine ⟨isProper_env, blank_env, hmem, ty, hlead, ?_, ?_⟩
  · intro tys hr name of hof
    exact (hpart tys hr name of hof).1
  · by_contra hnone
    refine not_coversWhole_half (hiff.mpr fun tys hr name of hof _ => ?_)
    by_contra hno
    exact hnone ⟨tys, name, of, hr, hof, hno⟩

end Outline

end Reversible
