import Reversible.Report.Diagnostic
import Reversible.Report.Digest

/-! # Diagnostic queues

Each pass of the check fills a queue of its own. A queue keeps diagnostics in the order they
come, drops one that repeats the last one kept, and counts those that come after its limit is
reached. Repetitions are told by the place and the digest of the message.
-/

namespace Reversible

/-- What a queue compares diagnostics by. -/
def Diagnostic.key (d : Diagnostic) : Option Span × UInt64 :=
  (d.primarySpan?, Digest.ofText d.message)

/-- What a queue leaves out. A limit of zero is no limit. -/
structure QueueConfig where
  errorLimit : Nat
  deduplicate : Bool
deriving DecidableEq, Repr

namespace QueueConfig

def standard : QueueConfig := ⟨100, true⟩

def unlimited : QueueConfig := ⟨0, false⟩

end QueueConfig

/-- The diagnostics of one pass: those kept, and the number of those left out by the limit. -/
structure Queue where
  config : QueueConfig
  kept : List Diagnostic := []
  suppressed : Nat := 0
deriving DecidableEq, Repr

namespace Queue

def new (config : QueueConfig) : Queue := { config }

def errorCount (q : Queue) : Nat := q.kept.length

def hasErrors (q : Queue) : Bool := 0 < q.errorCount

def limitReached (q : Queue) : Bool := 0 < q.config.errorLimit && q.config.errorLimit ≤ q.errorCount

/-- Whether a diagnostic cannot be told from the last one kept. -/
def repeatsLast (q : Queue) (d : Diagnostic) : Bool :=
  match q.kept.getLast? with
  | none => false
  | some last => last.key == d.key

def accepts (q : Queue) (d : Diagnostic) : Bool :=
  !q.limitReached && !(q.config.deduplicate && q.repeatsLast d)

def add (q : Queue) (d : Diagnostic) : Queue :=
  if q.limitReached then { q with suppressed := q.suppressed + 1 }
  else if q.config.deduplicate && q.repeatsLast d then q
  else { q with kept := q.kept ++ [d] }

def addAll (q : Queue) (ds : List Diagnostic) : Queue := ds.foldl add q

/-- The diagnostics kept, and at the end how many more there were. -/
def flushed (q : Queue) : List Diagnostic :=
  q.kept ++ if 0 < q.suppressed then [.tooMany q.config.errorLimit q.suppressed] else []

/-- A flushed queue starts anew. -/
def flush (q : Queue) : List Diagnostic × Queue := (q.flushed, new q.config)

def ofList (config : QueueConfig) (ds : List Diagnostic) : Queue := (new config).addAll ds

end Queue

def errorsEmitted? (count : Nat) : Option String :=
  if 0 < count then some "error(s) emitted" else none

end Reversible
