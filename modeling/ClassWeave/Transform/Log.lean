/-!
# Log entries

What a transformation tells about itself, by how serious it is.
-/

namespace ClassWeave

inductive LogLevel where
  | error
  | warn
  | info
  | debug
deriving Repr, DecidableEq, Inhabited

def LogLevel.name : LogLevel → String
  | error => "ERROR"
  | warn => "WARN"
  | info => "INFO"
  | debug => "DEBUG"

structure LogEntry where
  level : LogLevel
  message : String
deriving Repr, DecidableEq, Inhabited

end ClassWeave
