import Mathlib.Data.List.Chain
import Reversible.Proofs.Report.Queue

/-! # What a limit leaves out

A queue with a limit keeps the first of the diagnostics that it would keep without the limit. What
comes when there is no room left is counted and not looked at, so a repetition, which would not be
kept in any case, is counted too. The count at the end is the number of the diagnostics left out
exactly if none of the late ones is a repetition. As messages are compared by their digests, what
counts as a repetition can have a message of its own. After a flush a queue answers like a new one.
-/

namespace Reversible

/-- A diagnostic is at another place than the one before it, or its message has another digest. -/
def Diagnostic.Differs (last d : Diagnostic) : Prop :=
  ¬ (last.primarySpan? = d.primarySpan? ∧ Digest.ofText last.message = Digest.ofText d.message)

instance : DecidableRel Diagnostic.Differs := fun _ _ => inferInstanceAs (Decidable (¬ _))

theorem Diagnostic.tooMany_inj {limit m n : Nat} : tooMany limit m = tooMany limit n ↔ m = n := by
  constructor
  · intro h
    have hmessage : m.repr = n.repr := by simpa [tooMany] using congrArg Diagnostic.message h
    have hdigits : Nat.toDigits 10 m = Nat.toDigits 10 n := by
      simpa only [Nat.toList_repr] using congrArg String.toList hmessage
    rw [← Nat.ofDigitChars_ten_toDigits (n := m), hdigits, Nat.ofDigitChars_ten_toDigits]
  · rintro rfl
    rfl

def QueueConfig.withoutLimit (config : QueueConfig) : QueueConfig := { config with errorLimit := 0 }

namespace Queue

variable {q : Queue} {d : Diagnostic} {ds : List Diagnostic} {config : QueueConfig}

def withoutLimit (q : Queue) : Queue := { q with config := q.config.withoutLimit }

/-- What is flushed without a limit. -/
def full (config : QueueConfig) (ds : List Diagnostic) : List Diagnostic :=
  (ofList config.withoutLimit ds).flushed

/-- What a limit is meant to leave: the first diagnostics, and the number of the others if there
are any. -/
def truncated (limit : Nat) (full : List Diagnostic) : List Diagnostic :=
  if full.length ≤ limit then full else full.take limit ++ [.tooMany limit (full.length - limit)]

/-- Said at the end if diagnostics have come for which there was no room. -/
def remark (limit : Nat) (late : List Diagnostic) : List Diagnostic :=
  if late = [] then [] else [.tooMany limit late.length]

/-- The diagnostics that come when there is no room left. -/
def late (q : Queue) : List Diagnostic → List Diagnostic
  | [] => []
  | d :: ds => if q.limitReached then d :: ds else (q.add d).late ds

theorem limitReached_iff :
    q.limitReached ↔ 0 < q.config.errorLimit ∧ q.config.errorLimit ≤ q.kept.length := by
  rw [limitReached, Bool.and_eq_true, decide_eq_true_iff, decide_eq_true_iff, errorCount]

theorem repeatsLast_iff : q.repeatsLast d ↔ ∃ last ∈ q.kept.getLast?, ¬ last.Differs d := by
  rw [repeatsLast]
  cases q.kept.getLast? <;> simp [Diagnostic.Differs, Diagnostic.key]

theorem add_cases (q : Queue) (d : Diagnostic) :
    (q.limitReached ∧ q.add d = { q with suppressed := q.suppressed + 1 }) ∨
    (¬ q.limitReached ∧ (q.config.deduplicate ∧ q.repeatsLast d) ∧ q.add d = q) ∨
    (¬ q.limitReached ∧ ¬ (q.config.deduplicate ∧ q.repeatsLast d) ∧
      q.add d = { q with kept := q.kept ++ [d] }) := by
  rw [add, ← Bool.and_eq_true]
  split
  · next h => exact .inl ⟨h, rfl⟩
  · next h =>
    split
    · next hrep => exact .inr (.inl ⟨h, hrep, rfl⟩)
    · next hrep => exact .inr (.inr ⟨h, hrep, rfl⟩)

theorem kept_prefix_addAll (q : Queue) (ds : List Diagnostic) : q.kept <+: (q.addAll ds).kept := by
  induction ds generalizing q with
  | nil => exact List.prefix_rfl
  | cons d ds ih =>
    refine List.IsPrefix.trans ?_ (ih (q.add d))
    obtain ⟨-, h⟩ | ⟨-, -, h⟩ | ⟨-, -, h⟩ := q.add_cases d <;> simp [h]

/-! ### Without a limit -/

theorem kept_addAll_eq_append_iff (h : q.config.errorLimit = 0) (ds : List Diagnostic) :
    (q.addAll ds).kept = q.kept ++ ds ↔
      (q.config.deduplicate → List.IsChain Diagnostic.Differs (q.kept.getLast?.toList ++ ds)) := by
  induction ds generalizing q with
  | nil => cases q.kept.getLast? <;> simp [addAll]
  | cons d ds ih =>
    change ((q.add d).addAll ds).kept = _ ↔ _
    obtain ⟨hl, -⟩ | ⟨-, ⟨hd, hrep⟩, hadd⟩ | ⟨-, hrep, hadd⟩ := q.add_cases d
    · simp [limitReached_iff, h] at hl
    · -- the repetition is dropped, so too few are kept
      have hlen := (q.kept_addAll_sublist ds).length_le
      refine iff_of_false (fun heq => ?_) fun hchain => ?_
      · rw [hadd] at heq
        rw [heq, List.length_append, List.length_append, List.length_cons] at hlen
        omega
      · obtain ⟨last, hlast, hsame⟩ := repeatsLast_iff.mp hrep
        have hchain := hchain hd
        rw [Option.mem_def.mp hlast] at hchain
        exact hsame (List.isChain_cons_cons.mp hchain).1
    · have hiff := ih (q := { q with kept := q.kept ++ [d] }) h
      rw [List.append_assoc, List.singleton_append] at hiff
      rw [hadd, hiff]
      refine imp_congr_right fun hd => ?_
      have hdiffers : ∀ last ∈ q.kept.getLast?, last.Differs d := fun last hlast =>
        not_not.mp fun hsame => hrep ⟨hd, repeatsLast_iff.mpr ⟨last, hlast, hsame⟩⟩
      cases hlast : q.kept.getLast? with
      | none => simp
      | some last => simp [hdiffers last hlast]

/-! ### With a limit -/

theorem addAll_of_limitReached (h : q.limitReached) (ds : List Diagnostic) :
    q.addAll ds = { q with suppressed := q.suppressed + ds.length } := by
  induction ds generalizing q with
  | nil => rfl
  | cons d ds ih =>
    obtain ⟨-, hadd⟩ | ⟨hl, -⟩ | ⟨hl, -⟩ := q.add_cases d
    · change (q.add d).addAll ds = _
      rw [hadd, ih (q := { q with suppressed := q.suppressed + 1 }) h, List.length_cons,
        Nat.add_assoc, Nat.add_comm 1]
    · exact absurd h hl
    · exact absurd h hl

theorem withoutLimit_add (h : ¬ q.limitReached) (d : Diagnostic) :
    (q.add d).withoutLimit = q.withoutLimit.add d := by
  have hl : ¬ q.withoutLimit.limitReached := by
    simp [limitReached_iff, withoutLimit, QueueConfig.withoutLimit]
  rw [add, add, if_neg h, if_neg hl, apply_ite withoutLimit]
  rfl

/-- A queue `p` to which a run of `q` comes when there is no room left, or at its end. -/
structure Fills (q p : Queue) (ds : List Diagnostic) : Prop where
  config_eq : p.config = q.config
  suppressed_eq : p.suppressed = q.suppressed
  length_le : p.kept.length ≤ q.config.errorLimit
  limitReached_of_late : q.late ds ≠ [] → p.limitReached
  addAll_eq : q.addAll ds = p.addAll (q.late ds)
  withoutLimit_eq : q.withoutLimit.addAll ds = p.withoutLimit.addAll (q.late ds)

theorem exists_fills (hpos : 0 < q.config.errorLimit) (hq : q.kept.length ≤ q.config.errorLimit)
    (ds : List Diagnostic) : ∃ p, q.Fills p ds := by
  induction ds generalizing q with
  | nil => exact ⟨q, rfl, rfl, hq, fun h => absurd rfl h, rfl, rfl⟩
  | cons d ds ih =>
    by_cases h : q.limitReached
    · have hlate : q.late (d :: ds) = d :: ds := if_pos h
      exact ⟨q, rfl, rfl, hq, fun _ => h, by rw [hlate], by rw [hlate]⟩
    · have hlate : q.late (d :: ds) = (q.add d).late ds := if_neg h
      have hroom : q.kept.length < q.config.errorLimit := by
        rw [limitReached_iff] at h
        omega
      obtain ⟨hconfig, hsuppressed, hlength⟩ : (q.add d).config = q.config ∧
          (q.add d).suppressed = q.suppressed ∧ (q.add d).kept.length ≤ q.config.errorLimit := by
        obtain ⟨hl, -⟩ | ⟨-, -, hadd⟩ | ⟨-, -, hadd⟩ := q.add_cases d
        · exact absurd hl h
        · rw [hadd]
          exact ⟨rfl, rfl, hq⟩
        · rw [hadd, List.length_append]
          exact ⟨rfl, rfl, hroom⟩
      obtain ⟨p, hp⟩ := ih (by rwa [hconfig]) (by rwa [hconfig])
      refine ⟨p, hp.config_eq.trans hconfig, hp.suppressed_eq.trans hsuppressed,
        hconfig ▸ hp.length_le, ?_, ?_, ?_⟩
      · rw [hlate]
        exact hp.limitReached_of_late
      · rw [hlate]
        exact hp.addAll_eq
      · rw [hlate, ← hp.withoutLimit_eq, withoutLimit_add h]
        rfl

section Flushing

variable {p : Queue}

theorem suppressed_addAll (h : q.config.errorLimit = 0) (ds : List Diagnostic) :
    (q.addAll ds).suppressed = q.suppressed := by
  induction ds generalizing q with
  | nil => rfl
  | cons d ds ih =>
    change ((q.add d).addAll ds).suppressed = _
    obtain ⟨hl, -⟩ | ⟨-, -, hadd⟩ | ⟨-, -, hadd⟩ := q.add_cases d
    · simp [limitReached_iff, h] at hl
    · rw [hadd, ih h]
    · rw [hadd]
      exact ih (q := { q with kept := q.kept ++ [d] }) h

theorem full_eq_kept (config : QueueConfig) (ds : List Diagnostic) :
    full config ds = ((new config).withoutLimit.addAll ds).kept := by
  have hzero : (ofList config.withoutLimit ds).suppressed = 0 := suppressed_addAll rfl ds
  rw [full, flushed, hzero, if_neg (Nat.lt_irrefl 0), List.append_nil]
  rfl

/-- Without the limit, some of the late diagnostics are kept too: all but the repetitions. -/
theorem Fills.exists_full_eq (h : (new config).Fills p ds) :
    ∃ fresh, full config ds = p.kept ++ fresh ∧ fresh.Sublist ((new config).late ds) ∧
      (fresh = (new config).late ds ↔ (config.deduplicate →
        List.IsChain Diagnostic.Differs (p.kept.getLast?.toList ++ (new config).late ds))) := by
  obtain ⟨fresh, hfresh⟩ := p.withoutLimit.kept_prefix_addAll ((new config).late ds)
  have hsub := p.withoutLimit.kept_addAll_sublist ((new config).late ds)
  have hall := p.withoutLimit.kept_addAll_eq_append_iff rfl ((new config).late ds)
  rw [← hfresh, List.append_sublist_append_left] at hsub
  rw [← hfresh, List.append_cancel_left_eq] at hall
  refine ⟨fresh, ?_, hsub, hall.trans ?_⟩
  · rw [full_eq_kept, h.withoutLimit_eq, ← hfresh]
    rfl
  · change (p.config.deduplicate → _) ↔ _
    rw [h.config_eq]
    rfl

theorem Fills.length_eq (h : (new config).Fills p ds) (hne : (new config).late ds ≠ []) :
    p.kept.length = config.errorLimit := by
  have hreached := (limitReached_iff.mp (h.limitReached_of_late hne)).2
  rw [h.config_eq] at hreached
  exact Nat.le_antisymm h.length_le hreached

theorem Fills.flushed_eq (h : (new config).Fills p ds) :
    (ofList config ds).flushed = p.kept ++ remark config.errorLimit ((new config).late ds) := by
  have hp : p.suppressed = 0 := h.suppressed_eq
  have hconfig : p.config = config := h.config_eq
  rw [ofList, h.addAll_eq]
  by_cases hlate : (new config).late ds = []
  · simp [hlate, addAll, flushed, remark, hp]
  · have hlen := List.length_pos_iff.mpr hlate
    rw [addAll_of_limitReached (h.limitReached_of_late hlate), flushed, remark, if_neg hlate]
    simp [hp, hlen, hconfig]

theorem append_remark_eq_truncated_iff {limit : Nat} {kept fresh late : List Diagnostic}
    (hkept : kept.length ≤ limit) (hlate : late ≠ [] → kept.length = limit)
    (hfresh : fresh.Sublist late) :
    kept ++ remark limit late = truncated limit (kept ++ fresh) ↔ fresh = late := by
  rw [remark]
  by_cases hnil : late = []
  · obtain rfl : fresh = [] := List.sublist_nil.mp (hnil ▸ hfresh)
    simp [hnil, truncated, hkept]
  · obtain rfl := hlate hnil
    rw [if_neg hnil, truncated, List.length_append, List.take_left, Nat.add_sub_cancel_left]
    by_cases hf : fresh = []
    · simp [hf, Ne.symm hnil]
    · have hpos := List.length_pos_iff.mpr hf
      rw [if_neg (by omega), List.append_cancel_left_eq, List.singleton_inj,
        Diagnostic.tooMany_inj]
      exact ⟨fun h => hfresh.eq_of_length h.symm, fun h => congrArg _ h.symm⟩

end Flushing

/-! ### Answers of a queue -/

inductive Request where
  | add (d : Diagnostic)
  | hasErrors
  | errorCount
  | flush

inductive Reply where
  | added (kept : Bool)
  | hasErrors (any : Bool)
  | errorCount (count : Nat)
  | flushed (ds : List Diagnostic)
deriving DecidableEq

def reply (q : Queue) : Request → Reply
  | .add d => .added (q.accepts d)
  | .hasErrors => .hasErrors q.hasErrors
  | .errorCount => .errorCount q.errorCount
  | .flush => .flushed q.flush.1

def after (q : Queue) : Request → Queue
  | .add d => q.add d
  | .hasErrors => q
  | .errorCount => q
  | .flush => q.flush.2

def replies : Queue → List Request → List Reply
  | _, [] => []
  | q, r :: rs => q.reply r :: (q.after r).replies rs

theorem replies_append (q : Queue) (rs rs' : List Request) :
    q.replies (rs ++ rs') = q.replies rs ++ (rs.foldl after q).replies rs' := by
  induction rs generalizing q with
  | nil => rfl
  | cons r rs ih => rw [List.cons_append, replies, ih, replies, List.cons_append, List.foldl_cons]

theorem config_foldl_after (q : Queue) (rs : List Request) :
    (rs.foldl after q).config = q.config := by
  induction rs generalizing q with
  | nil => rfl
  | cons r rs ih =>
    rw [List.foldl_cons, ih]
    cases r with
    | add d => exact q.config_addAll [d]
    | hasErrors | errorCount | flush => rfl

/-- A queue with a limit flushes the first of the diagnostics that it would flush without the limit,
and at the end the number of those that came when there was no room left. This is a truncation if
and only if no repetition is among the late ones. After a flush a queue answers like a new one. -/
theorem limit_truncates (config : QueueConfig) :
    (0 < config.errorLimit → ∀ ds,
      (ofList config ds).flushed = (full config ds).take config.errorLimit ++
        remark config.errorLimit ((new config).late ds) ∧
      ((new config).late ds ≠ [] → config.errorLimit ≤ (full config ds).length) ∧
      ((full config ds).drop config.errorLimit).Sublist ((new config).late ds) ∧
      ((ofList config ds).flushed = truncated config.errorLimit (full config ds) ↔
        (config.deduplicate → List.IsChain Diagnostic.Differs
          (((full config ds).take config.errorLimit).getLast?.toList ++ (new config).late ds)))) ∧
    ∀ earlier later, (new config).replies (earlier ++ .flush :: later) =
      (new config).replies (earlier ++ [.flush]) ++ (new config).replies later := by
  constructor
  · intro hpos ds
    obtain ⟨p, hp⟩ := exists_fills (q := new config) hpos (Nat.zero_le _) ds
    obtain ⟨fresh, hfull, hfresh, hall⟩ := hp.exists_full_eq
    have hlate := hp.length_eq
    have hsplit : (full config ds).take config.errorLimit = p.kept ∧
        (full config ds).drop config.errorLimit = fresh := by
      rw [hfull]
      by_cases hnil : (new config).late ds = []
      · obtain rfl : fresh = [] := List.sublist_nil.mp (hnil ▸ hfresh)
        rw [List.append_nil]
        exact ⟨List.take_of_length_le hp.length_le, List.drop_of_length_le hp.length_le⟩
      · rw [← hlate hnil]
        exact ⟨List.take_left, List.drop_left⟩
    rw [hsplit.1, hsplit.2]
    refine ⟨hp.flushed_eq, fun hne => ?_, hfresh, ?_⟩
    · rw [← hlate hne, hfull, List.length_append]
      exact Nat.le_add_right ..
    · rw [hp.flushed_eq, hfull, ← hall]
      exact append_remark_eq_truncated_iff hp.length_le hlate hfresh
  · intro earlier later
    have hconfig := (new config).config_foldl_after earlier
    rw [List.append_cons, replies_append, List.foldl_append, List.foldl_cons, List.foldl_nil, after,
      flush, hconfig]
    rfl

end Queue

namespace Echo

def fault (n : Nat) : Diagnostic where
  code := .useUninitialized
  labels := [⟨⟨n, n + 1⟩, "here", true⟩]

def config : QueueConfig := ⟨2, true⟩

/-- A repetition comes before the limit is reached and none after that. -/
def faults : List Diagnostic := [fault 0, fault 0, fault 1, fault 0]

theorem limit_truncates_echo : 0 < config.errorLimit ∧
    Queue.full config faults = [fault 0, fault 1, fault 0] ∧
    (Queue.ofList config faults).flushed = Queue.truncated 2 (Queue.full config faults) ∧
    (Queue.new config).replies [.add (fault 0), .flush, .add (fault 0), .errorCount] =
      (Queue.new config).replies [.add (fault 0), .flush] ++
        (Queue.new config).replies [.add (fault 0), .errorCount] := by
  obtain ⟨hlimit, hreplies⟩ := Queue.limit_truncates config
  have hpos : 0 < config.errorLimit := by decide
  obtain ⟨-, -, -, hiff⟩ := hlimit hpos faults
  refine ⟨hpos, by decide +kernel, hiff.mpr fun _ => ?_, hreplies [.add (fault 0)] _⟩
  decide +kernel

def unready (name : Name) : Diagnostic :=
  (fault 0).withMessage ("cannot use `" ++ name ++ "` as it has not been initialized")

/-- Two variables of which the same is said in messages with one digest. -/
def twins : List Diagnostic := [unready "v3b0d4c544180395a", unready "vc83951fdb2009b9c"]

/-- A repetition that comes when the limit is reached is counted, although it would not be shown
with any limit. Of the twins only the first is kept, so `fault 1` is the second and last to be kept
and its repetition is counted. -/
theorem limit_counts_repetition :
    ((Queue.ofList config [fault 0, fault 1, fault 1]).flushed =
        [fault 0, fault 1, .tooMany 2 1] ∧
      Queue.full config [fault 0, fault 1, fault 1] = [fault 0, fault 1] ∧
      (Queue.ofList config [fault 0, fault 1, fault 1]).flushed ≠
        Queue.truncated 2 (Queue.full config [fault 0, fault 1, fault 1])) ∧
    (twins.map (·.message)).Nodup ∧
    twins.map (Digest.ofText ·.message) = [0xa7a11cff0de06926, 0xa7a11cff0de06926] ∧
    (Queue.ofList config (twins ++ [fault 1, fault 1])).flushed =
      twins.take 1 ++ [fault 1, .tooMany 2 1] ∧
    Queue.full config (twins ++ [fault 1, fault 1]) = twins.take 1 ++ [fault 1] ∧
    (Queue.ofList config (twins ++ [fault 1, fault 1])).flushed ≠
      Queue.truncated 2 (Queue.full config (twins ++ [fault 1, fault 1])) := by
  decide +kernel

end Echo

end Reversible
