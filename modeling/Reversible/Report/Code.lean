/-! # Error codes

The first digit of a code tells which part of the check reports it: 1 the control graph, 2 the
declarations, 3 the occupancy of slots, 4 memory, 9 the checker itself.
-/

namespace Reversible

inductive Code where
  | entryInOpenBlock
  | outsideBlock
  | repeatedEntryLabel
  | repeatedExitLabel
  | unmatchedEntryLabel
  | unmatchedExitLabel
  | repeatedParameter
  | untypedVariable
  | repeatedRoutine
  | conflict
  | finalizeUninitialized
  | initializeInitialized
  | useUninitialized
  | outputNotInitialized
  | variableNotFinalized
  | destroyedTwice
  | createdTwice
  | createdOnly
  | destroyedOnly
  | invalidAccess
  | internal
  | tooMany
deriving DecidableEq, Repr

namespace Code

def all : List Code :=
  [entryInOpenBlock, outsideBlock, repeatedEntryLabel, repeatedExitLabel, unmatchedEntryLabel,
    unmatchedExitLabel, repeatedParameter, untypedVariable, repeatedRoutine, conflict,
    finalizeUninitialized, initializeInitialized, useUninitialized, outputNotInitialized,
    variableNotFinalized, destroyedTwice, createdTwice, createdOnly, destroyedOnly, invalidAccess,
    internal, tooMany]

def number : Code → Nat
  | entryInOpenBlock => 1001
  | outsideBlock => 1002
  | repeatedEntryLabel => 1003
  | repeatedExitLabel => 1004
  | unmatchedEntryLabel => 1005
  | unmatchedExitLabel => 1006
  | repeatedParameter => 2001
  | untypedVariable => 2002
  | repeatedRoutine => 2003
  | conflict => 3001
  | finalizeUninitialized => 3002
  | initializeInitialized => 3003
  | useUninitialized => 3004
  | outputNotInitialized => 3005
  | variableNotFinalized => 3006
  | destroyedTwice => 4001
  | createdTwice => 4002
  | createdOnly => 4003
  | destroyedOnly => 4004
  | invalidAccess => 4005
  | internal => 9001
  | tooMany => 9002

def render (c : Code) : String := "E" ++ toString c.number

/-- Read a code. The letter may be lower case; it is the only letter in a code, and no other
character has it as its upper case, so mapping ASCII letters is enough. -/
def parse? (text : String) : Option Code :=
  all.find? fun c => c.render == text.map Char.toUpper

end Code

end Reversible
