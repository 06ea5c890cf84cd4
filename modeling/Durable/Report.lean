/-
Diagnostics for people and for tools.

People read one line for each diagnostic.  Tools read a JSON array with an object for
each, which holds the same without the end of the place.
-/
import Durable.Diagnostic
import Durable.Text.Json

namespace Durable

/-- The forms of a report. -/
inductive ReportFormat where
  | text | json
deriving DecidableEq, Repr

namespace Diagnostic

/-- The fields of a diagnostic with their values in JSON. -/
def jsonFields (d : Diagnostic) : List (String × String) :=
  [("code", Text.jsonQuote d.violation.code),
   ("severity", Text.jsonQuote d.severity.tag),
   ("message", Text.jsonQuote d.violation.message),
   ("file", Text.jsonQuote d.location.file),
   ("line", toString d.location.line),
   ("column", toString d.location.column)]

/-- A diagnostic as an indented JSON object. -/
def renderJson (d : Diagnostic) : String :=
  let fields := d.jsonFields.map fun (key, value) => "    " ++ Text.jsonQuote key ++ ": " ++ value
  "  \x7b\n" ++ String.intercalate ",\n" fields ++ "\n  \x7d"

end Diagnostic

namespace Diagnostics

/-- One line for each diagnostic. -/
def renderText (ds : Diagnostics) : String := String.join (ds.map fun d => d.render ++ "\n")

/-- Diagnostics as an indented JSON array. -/
def renderJson (ds : Diagnostics) : String :=
  if ds.isEmpty then "[]"
  else "[\n" ++ String.intercalate ",\n" (ds.map Diagnostic.renderJson) ++ "\n]"

/-- A report in the form that is asked for. -/
def report (f : ReportFormat) (ds : Diagnostics) : String :=
  match f with
  | .text => ds.renderText
  | .json => ds.renderJson ++ "\n"

end Diagnostics

end Durable
