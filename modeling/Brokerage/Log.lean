/-
# Log lines

Key definitions: `LogLine`.
-/
namespace Brokerage

inductive LogLevel where
  | warn
  | info
  | debug
  deriving DecidableEq, Repr

structure LogLine where
  level : LogLevel
  text : String
  deriving DecidableEq, Repr

def LogLevel.name : LogLevel → String
  | .warn => "WARN"
  | .info => "INFO"
  | .debug => "DEBUG"

def LogLine.render (line : LogLine) : String :=
  line.level.name ++ " " ++ line.text

end Brokerage
