import Rearrange.Span

namespace Rearrange

structure Report where
  message : String
  labels : List String
  help : Option String
  note : Option String := none
deriving DecidableEq, Repr

namespace Report

def highlight (text : String) : String := "\x1b[38;2;52;235;152m" ++ text ++ "\x1b[0m"

/-- Each marked region takes one label, so the shorter list decides how many are shown. -/
def shownLabels (r : Report) (spans : List Span) : List (Span × String) := spans.zip r.labels

end Report

/-- A failure together with the regions it is about. A fatal one ends all attempts to read the
text another way. -/
structure Located (Cause : Type) where
  cause : Cause
  spans : List Span
  fatal : Bool := false
deriving DecidableEq

def Located.map {α β : Type} (f : α → β) (e : Located α) : Located β :=
  ⟨f e.cause, e.spans, e.fatal⟩

end Rearrange
