/-!
# Faults

Everything that can go wrong, by cause. Each cause has a code, a summary and, where something can
be done about it, a hint; the message adds what the fault was about.
-/

namespace Confluence

/-- Why a call failed. -/
inductive Fault where
  /-- A commit, a snapshot or a path to one is missing. -/
  | notFound (what : String)
  /-- Two lists of operations do not start from one document. -/
  | transformConflict (detail : String)
  /-- An id is taken by a commit with other content. -/
  | commitConflict (id : String)
  /-- An argument breaks a rule. -/
  | invalidArgument (detail : String)
  /-- The storage did not do its work. -/
  | storage (detail : String)
  /-- The node was told to stop. -/
  | stopped
deriving DecidableEq, Inhabited

namespace Fault

def code : Fault → String
  | notFound _ => "E2001"
  | transformConflict _ => "E2002"
  | commitConflict _ => "E3001"
  | invalidArgument _ => "E3002"
  | storage _ => "E5001"
  | stopped => "E5002"

/-- What a cause means, whatever it was about. -/
def summary : Fault → String
  | notFound _ => "Commit or snapshot not found"
  | transformConflict _ => "Diffs cannot be transformed"
  | commitConflict _ => "Commit id reused with different content"
  | invalidArgument _ => "Invalid argument"
  | storage _ => "Repository storage failure"
  | stopped => "Node stopped"

/-- What to do about a cause. -/
def hint : Fault → Option String
  | notFound _ => some "Checkout again from the current heads."
  | transformConflict _ => some "Both diff sequences must start from the same document state."
  | commitConflict _ => some "Create a fresh commit instead of reusing the id."
  | invalidArgument _ => none
  | storage _ => some "Retry from the last known head."
  | stopped => none

def message : Fault → String
  | notFound what => "not found: " ++ what
  | transformConflict detail => "transform conflict: " ++ detail
  | commitConflict id => "commit " ++ id ++ " already exists with different content"
  | invalidArgument detail => "invalid argument: " ++ detail
  | storage detail => "storage failure: " ++ detail
  | stopped => "node stopped"

/-- Whether trying again may help: only a storage failure passes by itself. -/
def isTransient : Fault → Bool
  | storage _ => true
  | _ => false

end Fault

end Confluence
