import Reversible.Marks.Balance
import Reversible.Proofs.Marks.Table
import Reversible.Proofs.Verify.Silence

/-! # Balance of memory, location by location

Nothing is reported for the memory of an instruction if and only if all its paths can be followed,
no two paths in one role overlap, and the paths in the two roles cover the same locations.
-/

namespace Reversible

namespace Instruction

def memories (i : Instruction) : MemoryRole → List Memory
  | .destroyed => i.destroyed.flatMap Expr.memories
  | .created => i.created.flatMap Expr.memories

def memoryPaths (i : Instruction) (role : MemoryRole) : List MemoryPath :=
  (i.memories role).map (·.path)

/-- What an instruction destroys in memory it also creates, and each location at most once. -/
structure Balanced (env : Environment) (i : Instruction) : Prop where
  leads : ∀ role, ∀ p ∈ i.memoryPaths role, ∃ ty, env.Leads p ty
  apart : ∀ role, (i.memoryPaths role).Pairwise fun p q => ¬ p.Overlaps q
  covers_iff : ∀ q, env.IsLocation q →
    ((∃ p ∈ i.memoryPaths .destroyed, p.Covers q) ↔ ∃ p ∈ i.memoryPaths .created, p.Covers q)

end Instruction

namespace MarkTable

variable {env : Environment} {l : Layout Ty} {t : MarkTable} {done : List MemoryPath}
  {role : MemoryRole} {ms : List Memory}

theorem toList_markFault?_eq_nil_iff {m : Memory} {result : Except PlaceError Bool} :
    (markFault? role m result).toList = [] ↔ result = .ok false := by
  rcases result with e | (- | -) <;> simp [markFault?]

section Environment

variable (hl : env.layout = .ok l) (he : env.isProper)
include hl he

theorem Records.markAll (h : Records env l t done)
    (hm : ∀ p ∈ ms.map (·.path), ∃ ty, env.Leads p ty) :
    Records env l (t.markAll role ms).1 ((ms.map (·.path)).reverse ++ done) := by
  induction ms generalizing t done with
  | nil => exact h
  | cons m rest ih =>
    obtain ⟨⟨ty, hty⟩, hm⟩ := List.forall_mem_cons.mp hm
    have hrest := ih (h.mark hl he hty).2 hm
    rwa [List.map_cons, List.reverse_cons, List.append_assoc]

/-- Marking paths finds no fault if and only if all can be followed and no two overlap, those marked
before included. -/
theorem Records.markAll_eq_nil_iff (h : Records env l t done) : (t.markAll role ms).2 = [] ↔
    (∀ p ∈ ms.map (·.path), ∃ ty, env.Leads p ty) ∧
      (ms.map (·.path)).Pairwise (fun p q => ¬ p.Overlaps q) ∧
      ∀ p ∈ ms.map (·.path), ∀ d ∈ done, ¬ d.Overlaps p := by
  induction ms generalizing t done with
  | nil => simp [MarkTable.markAll]
  | cons m rest ih =>
    rw [MarkTable.markAll, List.append_eq_nil_iff, toList_markFault?_eq_nil_iff, List.map_cons,
      List.forall_mem_cons, List.pairwise_cons, List.forall_mem_cons]
    by_cases hp : ∃ ty, env.Leads m.path ty
    · obtain ⟨ty, hty⟩ := hp
      obtain ⟨⟨twice, htwice, hiff⟩, hrec⟩ := h.mark hl he hty
      have hfresh : (Except.ok twice : Except PlaceError Bool) = .ok false ↔
          ∀ d ∈ done, ¬ d.Overlaps m.path := by
        rw [Except.ok.injEq, ← Bool.not_eq_true, hiff, not_exists]
        simp only [not_and]
      have hlead : ∃ ty, env.Leads m.path ty := ⟨ty, hty⟩
      rw [htwice, ih hrec, hfresh]
      simp only [List.forall_mem_cons, imp_and, forall_and]
      tauto
    · obtain ⟨⟨e, herror⟩, -⟩ := mark_of_not_leads hl h.fits (not_exists.mp hp)
      simp [herror, hp]

end Environment

end MarkTable

namespace InstructionMarks

variable {env : Environment}

theorem imbalance_eq_nil_iff {role : MemoryRole} {span : Span} {t other : MarkTable} :
    imbalance role span t other = [] ↔ t.difference other = [] := by
  rw [imbalance]
  split <;> simp_all

theorem check_faults_eq_nil_iff {blank : MarkTable} {i : Instruction} :
    (check blank i).faults = [] ↔
      (blank.markAll .destroyed (i.memories .destroyed)).2 = [] ∧
      (blank.markAll .created (i.memories .created)).2 = [] ∧
      (blank.markAll .created (i.memories .created)).1.difference
        (blank.markAll .destroyed (i.memories .destroyed)).1 = [] ∧
      (blank.markAll .destroyed (i.memories .destroyed)).1.difference
        (blank.markAll .created (i.memories .created)).1 = [] := by
  simp only [check, Instruction.memories, List.append_eq_nil_iff, and_assoc]
  refine and_congr_right fun hd => and_congr_right fun hc => ?_
  simp [hd, hc, imbalance_eq_nil_iff]

/-- Nothing is reported for the memory of an instruction if and only if it is balanced. -/
theorem check_silent_iff (he : env.isProper) {blank : MarkTable}
    (hb : MarkTable.blank env = .ok blank) (config : QueueConfig) (i : Instruction) :
    (Queue.ofList config (diagnostics [check blank i])).flushed = [] ↔ i.Balanced env := by
  obtain ⟨l, hl, hblank⟩ := MarkTable.exists_records_of_blank hb
  have hfaults : diagnostics [check blank i] = [] ↔ (check blank i).faults = [] := by
    simp [diagnostics]
  have hmark : ∀ role, (blank.markAll role (i.memories role)).2 = [] ↔
      (∀ p ∈ i.memoryPaths role, ∃ ty, env.Leads p ty) ∧
        (i.memoryPaths role).Pairwise fun p q => ¬ p.Overlaps q := by
    intro role
    rw [hblank.markAll_eq_nil_iff hl he]
    simp [Instruction.memoryPaths]
  have hrecords : ∀ role, (∀ p ∈ i.memoryPaths role, ∃ ty, env.Leads p ty) →
      MarkTable.Records env l (blank.markAll role (i.memories role)).1
        ((i.memoryPaths role).reverse ++ []) := fun role hlead => hblank.markAll hl he hlead
  rw [Queue.flushed_ofList_eq_nil_iff, hfaults, check_faults_eq_nil_iff, hmark, hmark]
  constructor
  · rintro ⟨⟨hld, had⟩, ⟨hlc, hac⟩, hcd, hdc⟩
    rw [(hrecords _ hlc).difference_eq_nil_iff hl he (hrecords _ hld)] at hcd
    rw [(hrecords _ hld).difference_eq_nil_iff hl he (hrecords _ hlc)] at hdc
    refine ⟨?_, ?_, fun q hq => ?_⟩
    · rintro (- | -)
      · exact hld
      · exact hlc
    · rintro (- | -)
      · exact had
      · exact hac
    · simp only [List.append_nil, List.mem_reverse] at hcd hdc
      exact ⟨hdc q hq, hcd q hq⟩
  · rintro ⟨hlead, hapart, hcovers⟩
    refine ⟨⟨hlead _, hapart _⟩, ⟨hlead _, hapart _⟩, ?_, ?_⟩
    · rw [(hrecords _ (hlead _)).difference_eq_nil_iff hl he (hrecords _ (hlead _))]
      simp only [List.append_nil, List.mem_reverse]
      exact fun q hq => (hcovers q hq).mpr
    · rw [(hrecords _ (hlead _)).difference_eq_nil_iff hl he (hrecords _ (hlead _))]
      simp only [List.append_nil, List.mem_reverse]
      exact fun q hq => (hcovers q hq).mp

end InstructionMarks

namespace Chain

open Sample (span)

/-- A list cell holds a value and a reference to the next cell. -/
def env : Environment where
  types := (∅ : NameMap Ty).insert "Cell"
    (.record [("value", .int), ("next", .reference (.named "Cell"))])
  vars := (∅ : NameMap Ty).insert "p" (.reference (.named "Cell"))

def cell : Memory := .deref (.slot ⟨"p", span 0⟩) (span 0)

def member (of : Memory) (name : Name) : Memory := .member of ⟨name, span 1⟩ (span 1)

/-- Take a cell apart into its value and its reference. -/
def unpack : Instruction :=
  .assignMany [.memory (member cell "value"), .memory (member cell "next")] [.memory cell] (span 2)

/-- Take a cell apart into its value and the cell behind its reference. -/
def forget : Instruction :=
  .assignMany [.memory (member cell "value"), .memory (.derefAgain (member cell "next") (span 3))]
    [.memory cell] (span 4)

/-- A cell is made of its value and its reference, but not of its value and what the reference leads
to. -/
theorem check_silent_chain : env.isProper ∧ ∃ blank, MarkTable.blank env = .ok blank ∧
    unpack.Balanced env ∧ ¬ forget.Balanced env := by
  have he : env.isProper := by decide +kernel
  have hb : MarkTable.blank env =
      .ok ⟨env.types, .leaf "p" (some (.pointingTo (.named "Cell"))) .nil⟩ := by
    decide +kernel
  refine ⟨he, _, hb, ?_, ?_⟩
  · exact (InstructionMarks.check_silent_iff he hb .standard unpack).mp (by decide +kernel)
  · rw [← InstructionMarks.check_silent_iff he hb .standard forget]
    decide +kernel

end Chain

end Reversible
