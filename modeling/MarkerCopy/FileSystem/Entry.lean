import MarkerCopy.Path.Basic

/-! What can stand at a location: a directory, a link or a regular file. There are no devices,
sockets or pipes. A file stands at one location only, as nothing gives it a second name. -/

namespace MarkerCopy

/-- Who may read, write and execute: three bits each for the owner, the group and all others. They
are kept and copied, but nothing is refused because of them, as for a process that may do
everything. The bits that run a program as its owner or its group are left out. -/
structure Permissions where
  bits : BitVec 9
deriving DecidableEq

namespace Permissions

/-- What a directory gets if nothing else is asked for: all bits but those of the mask 022. -/
def forDirectory : Permissions :=
  ⟨0o755⟩

/-- What a file gets if nothing else is asked for: all bits to read and write but those of the mask
022. -/
def forFile : Permissions :=
  ⟨0o644⟩

def octal (p : Permissions) : String :=
  String.ofList (Nat.toDigits 8 p.bits.toNat)

def octalDigit? (c : Char) : Option Nat :=
  if '0' ≤ c ∧ c ≤ '7' then some (c.toNat - 48) else none

def ofOctal? (text : String) : Option Permissions := do
  let digits ← text.toList.mapM octalDigit?
  let n := digits.foldl (fun n d => 8 * n + d) 0
  if digits ≠ [] ∧ n < 512 then some ⟨BitVec.ofNat 9 n⟩ else none

end Permissions

/-- Contents are compared byte by byte. -/
local instance contentDecidableEq : DecidableEq ByteArray :=
  ByteArray.instDecidableEq

inductive Entry where
  | directory (permissions : Permissions)
  | link (target : Path)
  | file (content : ByteArray) (permissions : Permissions)
deriving DecidableEq

namespace Entry

def isDirectory : Entry → Bool
  | directory _ => true
  | _ => false

def isFile : Entry → Bool
  | file _ _ => true
  | _ => false

end Entry

end MarkerCopy
