/-!
# Warnings

A warning names the component that gives it. A `WarningLog` keeps the warnings that were given, each key text
only once.
-/

namespace ScssExtend

/-- A message about something that is accepted but ignored. -/
structure Warning where
  component : String
  message : String
  deriving DecidableEq

/-- A warning as it is displayed. -/
def Warning.text (w : Warning) : String :=
  "[" ++ w.component ++ "] " ++ w.message

/-- The warnings given so far, in order. -/
structure WarningLog where
  given : List Warning

namespace WarningLog

/-- No warning has been given. -/
def empty : WarningLog := ⟨[]⟩

/-- True when a warning with this text has been given. -/
def contains (log : WarningLog) (w : Warning) : Bool :=
  log.given.any fun v => v.text == w.text

/-- Gives a warning unless one with its text was given before. -/
def warn (log : WarningLog) (w : Warning) : WarningLog :=
  if log.contains w then log else ⟨log.given ++ [w]⟩

end WarningLog

end ScssExtend
