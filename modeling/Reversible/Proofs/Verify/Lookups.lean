import Reversible.Proofs.Layout.Addressing
import Reversible.Proofs.Verify.Cascade
import Reversible.Proofs.Verify.Presence

/-! # What a verification looks up

A variable is declared by each place that stands anywhere in a routine, and its site is where it
stands first. Every path of the body starts at a declared variable, and the variables that the
environment lacks are reported one by one. The later passes run only if there are none, so a lookup
of theirs may break at a member, but never at a variable.
-/

namespace Reversible

namespace Routine

variable {r : Routine} {env : Environment} {config : QueueConfig}

theorem filter_code_found {pass : Pass} (h : pass ≠ .declarations) :
    (r.found env pass).filter (·.code = .untypedVariable) = [] := by
  rw [List.filter_eq_nil_iff]
  intro d hd hcode
  have hcode : d.code = .untypedVariable := of_decide_eq_true hcode
  rcases r.found_codes env pass with hown | ⟨-, hfail⟩
  · exact h (Pass.eq_of_mem_codes (hcode ▸ hown d hd) (by decide))
  · have hmem : d.code ∈ (r.found env pass).map (·.code) := List.mem_map_of_mem hd
    rw [hfail, hcode] at hmem
    simp at hmem

theorem filter_code_verify (r : Routine) (env : Environment) :
    (r.verify env .unlimited).diagnostics.filter (·.code = .untypedVariable) =
      ((Declarations.ofRoutine r).untyped env).map fun (name, site) =>
        (DeclarationFault.untypedVariable name site).diagnostic := by
  have hshown : ∀ pass ≠ .declarations,
      (r.shown env .unlimited pass).filter (·.code = .untypedVariable) = [] := by
    intro pass hp
    rw [shown, passQueue_eq, Queue.flushed_ofList_unlimited]
    split
    · rfl
    · exact filter_code_found hp
  have hdecl : r.shown env .unlimited .declarations =
      (Declarations.faults r env).map (·.diagnostic) := by
    rw [shown, passQueue_eq, Queue.flushed_ofList_unlimited]
    simp [found]
  rw [diagnostics_verify, Pass.all]
  simp only [List.flatMap_cons, List.flatMap_nil, List.append_nil, List.filter_append]
  rw [hshown .graph (by simp), hshown .occupancy (by simp), hshown .memory (by simp), hdecl,
    Declarations.filter_code_faults]
  simp

end Routine

/-- The variable itself is not there, not only a member of it. -/
def PlaceError.missesVariable : PlaceError → Bool
  | unknown path => path.members.isEmpty
  | _ => false

namespace Event

/-- The failed lookup that an event warns of. -/
def error? : Event → Option PlaceError
  | checkerFailed _ e | resourceSkipped _ e | variableMissing _ e | markingFailed _ e => some e
  | _ => none

/-- The event does not warn of a variable that is not there. -/
def FindsVariable (event : Event) : Prop := ∀ e, event.error? = some e → ¬ e.missesVariable

theorem findsVariable_of_error? {event : Event} (h : event.error? = none) :
    event.FindsVariable := by
  simp [FindsVariable, h]

end Event

theorem Layout.not_missesVariable_of_slot {α : Type} {l : Layout α} {path : ResourcePath}
    {e : PlaceError} (hroot : l.Has (.ofVariable path.root)) (h : l.slot path = .error e) :
    ¬ e.missesVariable := by
  obtain ⟨n, hbreak, rfl⟩ := exists_breaksAt_of_slot h
  intro hm
  have hmembers : (path.take n).members = [] := by simpa [PlaceError.missesVariable] using hm
  have hpath : path.take n = .ofVariable path.root := by
    rw [ResourcePath.ofVariable, ← hmembers]
    rfl
  exact hbreak.missing (hpath ▸ hroot)

theorem Snapshot.not_missesVariable_of_read {s : Snapshot} {path : ResourcePath} {e : PlaceError}
    (hroot : Layout.Has s (.ofVariable path.root)) (h : s.read path = .error e) :
    ¬ e.missesVariable := by
  rw [Snapshot.read] at h
  split at h
  · next hs =>
    obtain rfl := Except.error.inj h
    exact Layout.not_missesVariable_of_slot hroot hs
  · cases h
  · cases h

theorem SlotAction.findsVariable_of_mem_missing {s : Snapshot} {a : SlotAction} {event : Event}
    (hroot : Layout.Has s (.ofVariable a.path.root)) (h : event ∈ a.missing s) :
    event.FindsVariable := by
  rw [missing] at h
  split at h
  · cases h
  · next hs =>
    obtain rfl := List.mem_singleton.mp h
    intro e he
    obtain rfl := Option.some.inj he
    exact Layout.not_missesVariable_of_slot hroot hs

theorem Instruction.path_mem_denotedPaths {i : Instruction} {a : SlotAction} (h : a ∈ i.actions) :
    a.path ∈ i.denotedPaths := by
  have hexpr : ∀ {e path}, e ∈ i.exprs → path ∈ e.resourcePaths → path ∈ i.denotedPaths :=
    fun he hp => List.mem_flatMap.mpr ⟨_, he, List.mem_append_left _ hp⟩
  have hoperand : ∀ {e path}, e ∈ i.operands → path ∈ e.resourcePaths → path ∈ i.denotedPaths :=
    fun he => hexpr (List.mem_append_right _ he)
  simp only [actions, List.mem_append] at h
  rcases h with ((h | h) | h) | h
  · obtain ⟨e, he, h⟩ := List.mem_flatMap.mp h
    obtain ⟨path, hp, rfl⟩ := List.mem_map.mp h
    exact hexpr (List.mem_append_left _ (List.mem_append_right _ he)) hp
  · obtain ⟨m, hm, rfl⟩ := List.mem_map.mp h
    obtain ⟨e, he, hm⟩ := List.mem_flatMap.mp hm
    refine List.mem_flatMap.mpr ⟨e, List.mem_append_left _ he, List.mem_append_right _ ?_⟩
    exact List.mem_map.mpr ⟨m, hm, m.resource_path⟩
  · cases i with
    | assign dst src modifier span =>
      cases modifier with
      | none => cases h
      | some modifier =>
        obtain ⟨path, hp, rfl⟩ := List.mem_map.mp h
        obtain ⟨e, he, hp⟩ := List.mem_flatMap.mp (SortedSet.mem_ofList.mp hp)
        exact hoperand he hp
    | branch direction lhs rhs condition span =>
      obtain ⟨path, hp, rfl⟩ := List.mem_map.mp h
      obtain ⟨e, he, hp⟩ := List.mem_flatMap.mp (SortedSet.mem_ofList.mp hp)
      exact hoperand he hp
    | assignMany dsts srcs span => cases h
    | call dsts srcs direction routine span => cases h
    | jump direction label span => cases h
  · obtain ⟨e, he, h⟩ := List.mem_flatMap.mp h
    obtain ⟨path, hp, rfl⟩ := List.mem_map.mp h
    exact hexpr (List.mem_append_left _ (List.mem_append_left _ he)) hp

theorem Instruction.resource_mem_denotedPaths {i : Instruction} {role : MemoryRole} {m : Memory}
    (h : m ∈ i.memories role) : m.path.resource ∈ i.denotedPaths := by
  have hexpr : ∃ e ∈ i.exprs, m ∈ e.memories := by
    cases role with
    | destroyed =>
      obtain ⟨e, he, hm⟩ := List.mem_flatMap.mp h
      exact ⟨e, List.mem_append_left _ (List.mem_append_right _ he), hm⟩
    | created =>
      obtain ⟨e, he, hm⟩ := List.mem_flatMap.mp h
      exact ⟨e, List.mem_append_left _ (List.mem_append_left _ he), hm⟩
  obtain ⟨e, he, hm⟩ := hexpr
  exact List.mem_flatMap.mpr ⟨e, he, List.mem_append_right _ (List.mem_map.mpr ⟨m, hm, rfl⟩)⟩

theorem MarkTree.not_missesVariable_of_follow {types : TypeTable} {f : MarkTree → MarkTree}
    {steps : List MemorySegment} {here : MemoryPath} {t : MarkTree} {e : PlaceError}
    (h : (t.follow types f here steps).2 = .error e) : ¬ e.missesVariable := by
  induction steps generalizing here t with
  | nil => cases h
  | cons step rest ih =>
    cases step with
    | deref =>
      cases t with
      | closed base marked =>
        rw [follow] at h
        split at h
        · obtain rfl := Except.error.inj h
          simp [PlaceError.missesVariable]
        · exact ih h
      | opened base marked target => exact ih h
      | leaf marked =>
        obtain rfl := Except.error.inj h
        simp [PlaceError.missesVariable]
      | record members =>
        obtain rfl := Except.error.inj h
        simp [PlaceError.missesVariable]
    | member name =>
      cases t with
      | record members =>
        cases hlook : members.lookup name with
        | none =>
          rw [follow, onMember_eq_none _ hlook] at h
          obtain rfl := Except.error.inj h
          simp [PlaceError.missesVariable]
        | some inner =>
          obtain ⟨members', hm, -⟩ :=
            exists_onMember (follow types f (here.push (.member name)) rest) hlook
          rw [follow, hm] at h
          exact ih h
      | _ =>
        obtain rfl := Except.error.inj h
        simp [PlaceError.missesVariable]

namespace MarkTable

variable {t : MarkTable} {l : Layout Ty}

theorem not_missesVariable_of_mark {p : MemoryPath} {e : PlaceError}
    (hroot : t.slots.Has (.ofVariable p.resource.root)) (h : (t.mark p).2 = .error e) :
    ¬ e.missesVariable := by
  rw [mark] at h
  split at h
  · next hleaf =>
    obtain rfl := Except.error.inj h
    rw [Layout.leafAt] at hleaf
    split at hleaf
    · next hs =>
      obtain rfl := Except.error.inj hleaf
      exact Layout.not_missesVariable_of_slot hroot hs
    · cases hleaf
    · obtain rfl := Except.error.inj hleaf
      simp [PlaceError.missesVariable]
  · obtain rfl := Except.error.inj h
    simp [PlaceError.missesVariable]
  · next tree _ =>
    have hfollow : (tree.follow t.types MarkTree.setMarked (.ofResource p.resource)
        p.segments).2 = .error e := by
      cases hf : (tree.follow t.types MarkTree.setMarked (.ofResource p.resource) p.segments).2 with
      | ok found => simp [hf, Except.map] at h
      | error e' => simpa [hf, Except.map] using h
    exact MarkTree.not_missesVariable_of_follow hfollow

theorem findsVariable_of_mem_markAll {role : MemoryRole} {ms : List Memory} {f : MemoryFault}
    {event : Event} (hroot : ∀ m ∈ ms, t.slots.Has (.ofVariable m.path.resource.root))
    (hf : f ∈ (t.markAll role ms).2) (he : f.event? = some event) : event.FindsVariable := by
  induction ms generalizing t with
  | nil => cases hf
  | cons m rest ih =>
    obtain ⟨hm, hrest⟩ := List.forall_mem_cons.mp hroot
    rw [markAll] at hf
    rcases List.mem_append.mp hf with hf | hf
    · cases hmark : (t.mark m.path).2 with
      | error e =>
        simp only [hmark, markFault?, Option.mem_toList, Option.some.injEq] at hf
        subst hf
        obtain rfl := Option.some.inj he
        intro e' he'
        obtain rfl := Option.some.inj he'
        exact not_missesVariable_of_mark hm hmark
      | ok found =>
        cases found with
        | false => simp [hmark, markFault?] at hf
        | true =>
          simp only [hmark, markFault?, Option.mem_toList, Option.some.injEq] at hf
          subst hf
          cases he
    · refine ih (fun m' hm' => ?_) hf
      exact (Layout.exists_slot_congr (t.shape_mark m.path)).mpr (hrest m' hm')

end MarkTable

namespace Routine

variable {r : Routine} {env : Environment} {config : QueueConfig} {dumps : Dumps} {l : Layout Ty}
  {event : Event}

section Declared

variable (hl : env.layout = .ok l) (hd : Declarations.faults r env = [])
include hl hd

theorem has_variable {α : Type} {d : Layout α} (hs : d.shape = l.shape) {name : Name}
    (hm : ∃ id ∈ Declarations.mentions r, id.name = name) : d.Has (.ofVariable name) :=
  (Layout.exists_slot_congr hs).mpr
    ((env.exists_slot_iff hl).mpr (Declarations.contains_of_faults hd hm))

theorem findsVariable_of_mem_missing {s : Snapshot} (hs : Layout.shape s = l.shape) {b : Nat}
    {a : SlotAction} (ha : a ∈ (r.problem l).actions b) (h : event ∈ a.missing s) :
    event.FindsVariable := by
  obtain ⟨i, hi, ha⟩ := List.mem_flatMap.mp ha
  have hi := ControlGraph.mem_body_of_mem_instructions hi
  refine SlotAction.findsVariable_of_mem_missing (has_variable hl hd hs ?_) h
  exact exists_mention_of_mem_denotedPaths hi (Instruction.path_mem_denotedPaths ha)

theorem findsVariable_of_mem_events (h : event ∈ (r.problem l).events) : event.FindsVariable := by
  rw [OccupancyProblem.events, FlowProblem.events] at h
  rcases List.mem_append.mp h with h | h
  · rcases List.mem_cons.mp h with rfl | h
    · exact Event.findsVariable_of_error? rfl
    · obtain ⟨⟨v, n⟩, -, h⟩ := List.mem_flatMap.mp h
      rcases List.mem_append.mp h with h | h
      · obtain ⟨a, ha, h⟩ := List.mem_flatMap.mp h
        exact findsVariable_of_mem_missing hl hd (l.shape_map _) (List.mem_of_mem_filter ha) h
      · obtain rfl := List.mem_singleton.mp h
        exact Event.findsVariable_of_error? rfl
  · obtain rfl := List.mem_singleton.mp h
    exact Event.findsVariable_of_error? rfl

theorem findsVariable_of_mem_replayEvents
    (h : event ∈ OccupancySolution.replayEvents (.ofRoutine r) (r.problem l).solve) :
    event.FindsVariable := by
  obtain ⟨b, -, h⟩ := List.mem_flatMap.mp h
  split at h
  · cases h
  · next s hs =>
    obtain ⟨a, ha, h⟩ := List.mem_flatMap.mp h
    have hadmits := ((OccupancyProblem.closed_admits _ l _).solve _).2 b s |>.1 hs
    exact findsVariable_of_mem_missing hl hd (OccupancyProblem.shape_of_admits hadmits).symm ha h

theorem findsVariable_of_mem_endEvents
    (h : event ∈ OccupancySolution.endEvents (.ofRoutine r) (r.problem l).solve (.ofRoutine r)) :
    event.FindsVariable := by
  rw [OccupancySolution.endEvents] at h
  split at h
  · cases h
  · next s hs =>
    have hadmits := ((OccupancyProblem.closed_admits _ l _).solve _).2 _ s |>.2 hs
    obtain ⟨⟨name, site⟩, hmem, h⟩ := List.mem_flatMap.mp h
    dsimp only at h
    split at h
    · next e hread =>
      obtain rfl := List.mem_singleton.mp h
      intro e' he'
      obtain rfl := Option.some.inj he'
      refine Snapshot.not_missesVariable_of_read (has_variable hl hd
        (OccupancyProblem.shape_of_admits hadmits).symm ?_) hread
      have hkey : name ∈ (Declarations.ofRoutine r).sites.keys :=
        List.mem_map.mpr ⟨_, OccupancySolution.mem_endOrder_iff.mp hmem, rfl⟩
      exact Declarations.mem_keys_sites_iff.mp hkey
    · cases h

theorem findsVariable_of_mem_check {i : Instruction} (hi : i ∈ r.body) {f : MemoryFault}
    (hf : f ∈ (InstructionMarks.check ⟨env.types, l.map MarkTable.slotTree⟩ i).faults)
    (he : f.event? = some event) : event.FindsVariable := by
  have hroot : ∀ role, ∀ m ∈ i.memories role,
      (l.map MarkTable.slotTree).Has (.ofVariable m.path.resource.root) := by
    intro role m hm
    exact has_variable hl hd (l.shape_map _) (exists_mention_of_mem_denotedPaths hi
      (Instruction.resource_mem_denotedPaths hm))
  have hbalance : ∀ role span t other, f ∉ InstructionMarks.imbalance role span t other := by
    intro role span t other hf
    rw [InstructionMarks.imbalance] at hf
    split at hf
    · cases hf
    · obtain rfl := List.mem_singleton.mp hf
      cases he
  rw [InstructionMarks.check] at hf
  rcases List.mem_append.mp hf with hf | hf
  · rcases List.mem_append.mp hf with hf | hf
    · exact MarkTable.findsVariable_of_mem_markAll (hroot .destroyed) hf he
    · exact MarkTable.findsVariable_of_mem_markAll (hroot .created) hf he
  · split at hf
    · cases hf
    · rcases List.mem_append.mp hf with hf | hf
      · exact absurd hf (hbalance _ _ _ _)
      · exact absurd hf (hbalance _ _ _ _)

end Declared

theorem findsVariable_of_mem_occupancyEvents (hd : Declarations.faults r env = [])
    (h : event ∈ r.occupancyEvents env dumps) : event.FindsVariable := by
  rw [occupancyEvents] at h
  cases hl : env.layout with
  | error e =>
    rw [occupancyProblem_of_layout_error hl] at h
    obtain rfl := List.mem_singleton.mp h
    intro e' he'
    obtain rfl := Option.some.inj he'
    simp [PlaceError.missesVariable]
  | ok l =>
    rw [occupancyProblem_of_declared hl hd] at h
    rcases List.mem_append.mp h with h | h
    · simp only [OccupancyProblem.analysisEvents, List.mem_append, List.mem_cons, List.not_mem_nil,
        or_false] at h
      rcases h with (h | rfl | rfl) | h
      · exact findsVariable_of_mem_events hl hd h
      · exact Event.findsVariable_of_error? rfl
      · exact Event.findsVariable_of_error? rfl
      · split at h
        · rcases List.mem_append.mp h with h | h
          · exact findsVariable_of_mem_replayEvents hl hd h
          · exact findsVariable_of_mem_endEvents hl hd h
        · cases h
    · split at h
      · obtain ⟨c, -, rfl⟩ := List.mem_map.mp h
        exact Event.findsVariable_of_error? rfl
      · cases h

theorem findsVariable_of_mem_memoryEvents (hd : Declarations.faults r env = [])
    (h : event ∈ r.memoryEvents env config dumps) : event.FindsVariable := by
  rw [memoryEvents, InstructionMarks.ofBody_eq] at h
  cases hl : env.layout with
  | error e =>
    rw [hl] at h
    obtain rfl := List.mem_singleton.mp h
    intro e' he'
    obtain rfl := Option.some.inj he'
    simp [PlaceError.missesVariable]
  | ok l =>
    rw [hl] at h
    rcases List.mem_append.mp h with h | h
    · rcases List.mem_append.mp h with h | h
      · obtain ⟨m, hm, h⟩ := List.mem_flatMap.mp h
        obtain ⟨i, hi, rfl⟩ := List.mem_map.mp hm
        obtain ⟨f, hf, he⟩ := List.mem_filterMap.mp h
        exact findsVariable_of_mem_check hl hd hi hf he
      · obtain rfl := List.mem_singleton.mp h
        exact Event.findsVariable_of_error? rfl
    · split at h
      · rw [← List.map_uncurry_zip_eq_zipWith] at h
        obtain ⟨im, -, rfl⟩ := List.mem_map.mp h
        exact Event.findsVariable_of_error? rfl
      · cases h

/-- Whatever is configured, no lookup of a verification is for a variable that is not there. -/
theorem findsVariable_of_mem_verifyEvents (h : event ∈ r.verifyEvents env config dumps) :
    event.FindsVariable := by
  have hone : ∀ e : Event, e.error? = none → ∀ event ∈ [e], event.FindsVariable := by
    intro e he event hmem
    rw [List.mem_singleton.mp hmem]
    exact Event.findsVariable_of_error? he
  simp only [verifyEvents, hasErrors_declarationQueue, hasErrors_graphQueue, List.mem_append] at h
  rcases h with (((((h | h) | h) | h) | h) | h) | h
  · exact hone _ rfl event h
  · exact hone _ rfl event h
  · split at h
    · exact hone _ rfl event h
    · cases h
  · split at h
    · exact hone _ rfl event h
    · next hno => exact findsVariable_of_mem_occupancyEvents (by simp_all) h
  · split at h
    · exact hone _ rfl event h
    · next hno => exact findsVariable_of_mem_memoryEvents (by simp_all) h
  · split at h
    · exact hone _ rfl event h
    · cases h
  · exact hone _ rfl event h

/-- Declared are the parameters and the variables of all slots that stand anywhere in the body, each
at its first mention. Every path of the body starts at a declared variable. Those of them that the
environment lacks are reported once each and in the order of their names. If there is none, the
layout has every declared variable, and in any case no lookup is for a variable that is not there:
where one is missing, nothing is looked up. -/
theorem declarations_cover (r : Routine) (env : Environment) :
    let declared := (Declarations.ofRoutine r).sites.keys
    (∀ name, name ∈ declared ↔ (∃ q ∈ r.inputs ++ r.outputs, q.id.name = name) ∨
      ∃ i ∈ r.body, ∃ e ∈ i.created ++ i.destroyed ++ i.operands,
        ∃ place, e.Contains place ∧ place.root.name = name) ∧
    (∀ name, (Declarations.ofRoutine r).site? name =
      ((r.inputs.map (·.id) ++ r.outputs.map (·.id) ++ r.body.flatMap fun i =>
        (i.created ++ i.destroyed ++ i.operands).flatMap Expr.roots).find?
          (·.name = name)).map (·.span)) ∧
    ((∀ i ∈ r.body, ∀ e ∈ i.created ++ i.destroyed ++ i.operands,
        (∀ path ∈ e.resourcePaths, path.root ∈ declared) ∧
          ∀ m ∈ e.memories, m.path.resource.root ∈ declared) ∧
      (∀ dst src modifier span, .assign dst src (some modifier) span ∈ r.body →
        ∀ path ∈ modifier.value.resourcePaths, path.root ∈ declared) ∧
      ∀ direction lhs rhs condition span, .branch direction lhs rhs condition span ∈ r.body →
        ∀ path ∈ condition.resourcePaths, path.root ∈ declared) ∧
    (∃ missing : List (Name × Span),
      (missing.Pairwise fun a b => compare a.1 b.1 = .lt) ∧
      (∀ name site, (name, site) ∈ missing ↔
        (Declarations.ofRoutine r).site? name = some site ∧ ¬ env.contains name) ∧
      (r.verify env .unlimited).diagnostics.filter (·.code = .untypedVariable) =
        missing.map fun (name, site) => (DeclarationFault.untypedVariable name site).diagnostic) ∧
    (.untypedVariable ∉ (r.verify env .unlimited).codes → ∀ l, env.layout = .ok l →
      ∀ name ∈ declared, ∃ slot, l.slot (.ofVariable name) = .ok slot) ∧
    ∀ config dumps, ∀ event ∈ r.verifyEvents env config dumps, event.FindsVariable := by
  intro declared
  have hpath : ∀ i ∈ r.body, ∀ e ∈ i.exprs, (∀ path ∈ e.resourcePaths, path.root ∈ declared) ∧
      ∀ m ∈ e.memories, m.path.resource.root ∈ declared := by
    intro i hi e he
    have hroot : ∀ name, (∃ id ∈ e.roots, id.name = name) → name ∈ declared := by
      rintro name ⟨id, hid, hname⟩
      exact Declarations.mem_keys_sites_iff.mpr
        ⟨id, Declarations.mem_mentions_of_mem_roots hi he hid, hname⟩
    exact ⟨fun path hp => hroot _ (Expr.exists_root_of_mem_resourcePaths hp),
      fun m hm => hroot _ (Expr.exists_root_of_mem_memories hm)⟩
  have hoperand : ∀ i ∈ r.body, ∀ path ∈ i.operands.flatMap Expr.resourcePaths,
      path.root ∈ declared := by
    intro i hi path hp
    obtain ⟨e, he, hp⟩ := List.mem_flatMap.mp hp
    exact (hpath i hi e (List.mem_append_right _ he)).1 path hp
  refine ⟨fun name => Declarations.mem_keys_sites_iff_contains, fun name => ?_,
    ⟨hpath, fun _ _ _ _ hi => hoperand _ hi, fun _ _ _ _ _ hi => hoperand _ hi⟩,
    ⟨_, Declarations.pairwise_untyped _ env, fun _ _ => Declarations.mem_untyped_iff,
      r.filter_code_verify env⟩, fun hno l hl name hname => ?_,
    fun _ _ _ => findsVariable_of_mem_verifyEvents⟩
  · rw [Declarations.site?_ofRoutine, Declarations.mentions_eq]
  · refine (env.exists_slot_iff hl).mpr ?_
    by_contra hmiss
    obtain ⟨⟨_, site⟩, hsite, rfl⟩ := List.mem_map.mp hname
    have hmem := Declarations.mem_untyped_iff.mpr ⟨NameMap.mem_entries_iff.mp hsite, hmiss⟩
    have hreported := List.mem_map_of_mem
      (f := fun e => (DeclarationFault.untypedVariable e.1 e.2).diagnostic) hmem
    rw [← r.filter_code_verify env] at hreported
    exact hno (List.mem_map.mpr ⟨_, List.mem_of_mem_filter hreported, rfl⟩)

end Routine

namespace Nested

open Sample (span slot)

/-- What lies behind the reference in the member `next` of `q`, whose type is written out. -/
def behind : Memory :=
  .deref (.member (.typed (.slot ⟨"q", span 5⟩) (.named ⟨"List", span 6⟩) (span 5))
    ⟨"next", span 7⟩ (span 5)) (span 5)

/-- `q` occurs only under memory, inside an allocation that is a member of a structure literal, and
`z` only in a modifier, where `q` occurs again. -/
def update : Instruction :=
  .assign (.record [(⟨"f", span 4⟩, .allocation (.memory behind) (span 4))] (span 4)) (slot "a" 8)
    (some ⟨.add, .binary (slot "z" 9) .add (slot "q" 10) (span 9), span 9⟩) (span 4)

def routine : Routine where
  id := ⟨"nested", span 0⟩
  inputs := [⟨⟨"a", span 1⟩, none, span 1⟩]
  outputs := [⟨⟨"b", span 2⟩, none, span 2⟩]
  body := [update]
  span := span 0

/-- Only the parameters have a type. -/
def paramsEnv : Environment where
  types := ∅
  vars := ((∅ : NameMap Ty).insert "a" .int).insert "b" .int

def env : Environment :=
  (paramsEnv.declare "q" (.record [("next", .reference .int)])).declare "z" .int

def layout : Layout Ty :=
  .leaf "a" .int (.leaf "b" .int (.node "q" (.leaf "next" (.reference .int) .nil)
    (.leaf "z" .int .nil)))

theorem behind_contains :
    (Expr.record [(⟨"f", span 4⟩, .allocation (.memory behind) (span 4))] (span 4)).Contains
      (.slot ⟨"q", span 5⟩) :=
  .inr ⟨behind, .member (List.mem_singleton.mpr rfl) (.allocation .here),
    .deref (.member (.typed .here))⟩

theorem declarations_cover_nested :
    "q" ∈ (Declarations.ofRoutine routine).sites.keys ∧
    (Declarations.ofRoutine routine).site? "q" = some (span 5) ∧
    (∃ missing : List (Name × Span), (missing.Pairwise fun a b => compare a.1 b.1 = .lt) ∧
      ("q", span 5) ∈ missing ∧ ("z", span 9) ∈ missing ∧
      (routine.verify paramsEnv .unlimited).diagnostics.filter (·.code = .untypedVariable) =
        missing.map fun (name, site) => (DeclarationFault.untypedVariable name site).diagnostic) ∧
    (routine.verify paramsEnv .unlimited).codes = [.untypedVariable, .untypedVariable] ∧
    .untypedVariable ∉ (routine.verify env .unlimited).codes ∧ env.layout = .ok layout ∧
    (∃ slot, layout.slot (.ofVariable "q") = .ok slot) ∧
    ∀ event ∈ routine.verifyEvents env .standard {}, event.FindsVariable := by
  obtain ⟨hdeclared, hsite, -, ⟨missing, hsorted, hmem, hreport⟩, -⟩ :=
    Routine.declarations_cover routine paramsEnv
  obtain ⟨-, -, -, -, hlayout, hevents⟩ := Routine.declarations_cover routine env
  have hq : "q" ∈ (Declarations.ofRoutine routine).sites.keys :=
    (hdeclared "q").mpr (.inr ⟨update, List.mem_singleton.mpr rfl, _, List.mem_cons_self, _,
      behind_contains, rfl⟩)
  have hl : env.layout = .ok layout := by decide +kernel
  have hno : .untypedVariable ∉ (routine.verify env .unlimited).codes := by decide +kernel
  exact ⟨hq, (hsite "q").trans (by decide +kernel),
    ⟨missing, hsorted, (hmem _ _).mpr (by decide +kernel), (hmem _ _).mpr (by decide +kernel),
      hreport⟩, by decide +kernel, hno, hl, hlayout hno layout hl "q" hq,
    hevents .standard {}⟩

end Nested

end Reversible
