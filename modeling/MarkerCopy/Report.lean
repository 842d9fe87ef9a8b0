import MarkerCopy.Copy
import MarkerCopy.Text.Json

/-! Plans and reports as one line for people and as JSON for programs. -/

namespace MarkerCopy

def Plan.line (plan : Plan) : String :=
  s!"{plan.source.display} -> {plan.destinationFile.display}"

def Report.line (report : Report) : String :=
  let copied := s!"Copied {report.plan.line} ({report.bytesCopied} bytes)"
  if report.createdDir then copied ++ s!", created {report.plan.destinationDir.display}"
  else copied

/-- A path as text in JSON. -/
def Path.json? (p : Path) : Option Json.Value :=
  p.text?.map .string

/-- The fields of a plan, if all its paths are text. -/
def Plan.fields? (plan : Plan) : Option Json.Fields := do
  return [
    ("source", ← plan.source.json?),
    ("canonical_source", ← plan.canonicalSource.json?),
    ("mode", .string plan.marker.name),
    ("relative_dir", .string plan.relativeDir),
    ("relative_file", .string plan.relativeFile),
    ("destination_dir", ← plan.destinationDir.json?),
    ("destination_file", ← plan.destinationFile.json?)]

/-- The fields of the plan followed by what was done. -/
def Report.fields? (report : Report) : Option Json.Fields := do
  return (← report.plan.fields?) ++ [
    ("created_dir", .bool report.createdDir),
    ("bytes_copied", .number report.bytesCopied)]

def Plan.json? (plan : Plan) : Option String :=
  plan.fields?.map Json.renderObject

def Report.json? (report : Report) : Option String :=
  report.fields?.map Json.renderObject

/-- What is said where JSON is asked for and a path is not text. -/
def notJsonMessage : String :=
  "path contains invalid UTF-8 characters"

namespace Outcome

def line : Outcome → String
  | planned plan => plan.line
  | copied report => report.line

def json? : Outcome → Option String
  | planned plan => plan.json?
  | copied report => report.json?

end Outcome

end MarkerCopy
