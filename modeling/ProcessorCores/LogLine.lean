/-!
# Log lines

A diagnostic event as a host sees it: a severity, a message and named fields in a fixed order. The
rendered line is the severity in capitals, the message, then each field as `name=value`.
-/

namespace ProcessorCores

/-- How grave an event is. -/
inductive Severity
  | trace
  | debug
  | warn
  deriving DecidableEq, Repr

/-- The value of one field. -/
inductive FieldValue
  | number (value : Nat)
  | flag (on : Bool)
  | text (value : String)
  deriving DecidableEq, Repr

/-- A diagnostic event in the form it is reported. -/
structure LogLine where
  severity : Severity
  message : String
  fields : List (String × FieldValue)
  deriving DecidableEq, Repr

/-- The severity as it is written in a line. -/
def Severity.label : Severity → String
  | .trace => "TRACE"
  | .debug => "DEBUG"
  | .warn => "WARN"

/-- Numbers are decimal, texts bare. -/
def FieldValue.render : FieldValue → String
  | .number value => toString value
  | .flag true => "true"
  | .flag false => "false"
  | .text value => value

/-- The whole line. -/
def LogLine.render (line : LogLine) : String :=
  line.fields.foldl (fun text field => text ++ " " ++ field.1 ++ "=" ++ field.2.render)
    (line.severity.label ++ " " ++ line.message)

end ProcessorCores
