/-! # Log lines

Analyses and snapshots describe what they did as lines of text, each with the severity a
reader can filter by. Lines are values: whoever runs an operation decides where they go.
-/

namespace CilProfiler

inductive LogLevel where
  | trace
  | debug
  | warn
  deriving Repr, DecidableEq

def LogLevel.name : LogLevel → String
  | .trace => "TRACE"
  | .debug => "DEBUG"
  | .warn => "WARN"

structure LogLine where
  level : LogLevel
  text : String
  deriving Repr, DecidableEq

def LogLine.render (line : LogLine) : String :=
  line.level.name ++ " " ++ line.text

end CilProfiler
