import ScssExtend.Extension.Resolution

/-!
# The diagnostic log

A `LogRecord` is a line of the diagnostic log, and `Resolution.log` lists the records of a whole resolution.
-/

namespace ScssExtend

/-- The value of a field. -/
inductive LogValue where
  | text (value : String)
  | number (value : Nat)
  deriving DecidableEq

/-- How important a record is. -/
inductive LogLevel where
  | warn
  | debug
  | trace
  deriving DecidableEq

/-- The name of a level. -/
def LogLevel.text : LogLevel → String
  | warn => "WARN"
  | debug => "DEBUG"
  | trace => "TRACE"

/-- A message with named values, from the part of the program that `target` names. -/
structure LogRecord where
  level : LogLevel
  target : String
  message : String
  fields : List (String × LogValue)
  deriving DecidableEq

namespace LogRecord

/-- A record of resolution. -/
def ofResolution (level : LogLevel) (message : String) (fields : List (String × LogValue)) : LogRecord :=
  ⟨level, "lapis::extend", message, fields⟩

/-- The record of a warning. -/
def ofWarning (w : Warning) : LogRecord :=
  ⟨.warn, "lapis", w.message, [("component", .text w.component)]⟩

/-- The record of an event; questions to the grammar are not logged. -/
def ofEvent? : Event → Option LogRecord
  | .extending compound seen =>
    some (ofResolution .trace "extending compound selector"
      [("compound", .text compound.text), ("seen", .number seen.size)])
  | .matched compound extension =>
    some (ofResolution .trace "extension matched"
      [("compound", .text compound.text), ("target_selector", .text extension.target.text),
        ("extender", .text extension.extender.text)])
  | .unified extension remainder (some unified) =>
    some (ofResolution .trace "unified extender subject"
      [("extender", .text extension.extender.text), ("remainder", .text remainder.text),
        ("unified", .text unified.text)])
  | .unified extension remainder none =>
    some (ofResolution .trace "extender subject does not unify"
      [("extender", .text extension.extender.text), ("remainder", .text remainder.text)])
  | .consulted .. => none
  | .replaced position before after =>
    some (ofResolution .debug "rule selector rewritten"
      [("position", .text position.text), ("before", .text before.text), ("after", .text after.text)])

end LogRecord

/-- The log of a resolution: the warnings, the number of extensions, and the steps of the walk. -/
def Resolution.log (r : Resolution) : List LogRecord :=
  r.registry.log.given.map LogRecord.ofWarning ++
    .ofResolution .debug "resolving @extend" [("extensions", .number r.registry.table.entries.length)] ::
    r.walk.events.filterMap LogRecord.ofEvent?

end ScssExtend
