/-! Log entries. An entry has named fields in a fixed order, each of them as text. -/

namespace ChainHead

inductive Level where
  | debug
  | info
  | warn
  | error
deriving DecidableEq, Repr

def Level.text : Level → String
  | .debug => "DEBUG"
  | .info => "INFO"
  | .warn => "WARN"
  | .error => "ERROR"

structure LogEntry where
  level : Level
  message : String
  fields : List (String × String) := []
deriving DecidableEq, Repr

/-- An entry on one line: the level, the message, and the fields in their order. -/
def LogEntry.line (e : LogEntry) : String :=
  String.intercalate " "
    (e.level.text :: e.message :: e.fields.map fun (name, value) => name ++ "=" ++ value)

end ChainHead
