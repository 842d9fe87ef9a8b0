import MarkerCopy.Text.Pieces
import MarkerCopy.Text.Utf8.Basic

/-! Paths as they are given: strings of bytes in which only the slash has a meaning. Nothing here
looks at a file system. -/

namespace MarkerCopy

structure Path where
  bytes : List UInt8
deriving DecidableEq

namespace Path

def slash : UInt8 := 0x2F

def dot : UInt8 := 0x2E

def ofString (text : String) : Path :=
  ⟨Utf8.encode text.toList⟩

/-- The text of a path, if its bytes are UTF-8. -/
def text? (p : Path) : Option String :=
  (Utf8.decode? p.bytes).map String.ofList

/-- The text of a path for people to read. -/
def display (p : Path) : String :=
  String.ofList (Utf8.decodeLossy p.bytes)

def isEmpty (p : Path) : Bool :=
  p.bytes.isEmpty

def isAbsolute (p : Path) : Bool :=
  p.bytes.head? == some slash

/-- The stretches between the slashes, empty ones included. -/
def segments (p : Path) : List (List UInt8) :=
  pieces slash p.bytes

/-- What `name` means in the directory `dir`. An absolute name is not taken below `dir`, and no
slash is added where one stands already or nothing stands before it. -/
def join (dir name : Path) : Path :=
  if name.isAbsolute then name
  else if dir.isEmpty || dir.bytes.getLast? == some slash then ⟨dir.bytes ++ name.bytes⟩
  else ⟨dir.bytes ++ slash :: name.bytes⟩

end Path

end MarkerCopy
