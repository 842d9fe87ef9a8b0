import MarkerCopy.Text.Occurrence

/-! Markers are the directory names at which a path is cut into the part that is dropped and the
part that is kept. They are looked for in the text, so they are found inside longer names too. -/

namespace MarkerCopy

inductive Marker where
  /-- For files of the project itself. The cut drops the marker. -/
  | source
  /-- For files of its dependencies. The cut keeps the marker. -/
  | external
deriving DecidableEq

namespace Marker

def text : Marker → String
  | source => "src"
  | external => "cpwn_extern"

/-- The marker's name in reports. -/
def name : Marker → String
  | source => "source"
  | external => "extern"

/-- The answer to whether the file is external. -/
def flag : Marker → String
  | source => "no"
  | external => "yes"

def ofFlag? (value : String) : Option Marker :=
  if value = "no" then some source else if value = "yes" then some external else none

theorem ofFlag?_flag (marker : Marker) : ofFlag? marker.flag = some marker := by
  cases marker <;> decide

/-- The kept part of a text that begins with the marker. The character after a source marker is
dropped as well. -/
def keep (marker : Marker) (found : List Char) : List Char :=
  match marker with
  | source => found.drop (marker.text.length + 1)
  | external => found

/-- The part of a text that is kept when it is cut at the last marker in it. -/
def cut? (marker : Marker) (text : String) : Option String :=
  (fromLast? marker.text.toList text.toList).map fun found => String.ofList (marker.keep found)

end Marker

end MarkerCopy
