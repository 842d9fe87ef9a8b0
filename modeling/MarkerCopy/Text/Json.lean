/-! JSON objects of strings, truth values and natural numbers, written one field a line with an
indent of two blanks. Only what must be escaped is escaped. -/

namespace MarkerCopy.Json

inductive Value where
  | string (text : String)
  | bool (b : Bool)
  | number (n : Nat)
deriving DecidableEq

/-- The fields of an object in the order in which they are written. -/
abbrev Fields := List (String × Value)

/-- The hexadecimal digit of a number below 16, in lower case. -/
def hexDigit (n : Nat) : Char :=
  if n < 10 then Char.ofNat (48 + n) else Char.ofNat (87 + n)

/-- A character inside quotes: seven have an escape of their own, the other control characters
are written by number. -/
def escapeChar (c : Char) : List Char :=
  if c = '"' then ['\\', '"']
  else if c = '\\' then ['\\', '\\']
  else if c = '\x08' then ['\\', 'b']
  else if c = '\x0c' then ['\\', 'f']
  else if c = '\n' then ['\\', 'n']
  else if c = '\r' then ['\\', 'r']
  else if c = '\t' then ['\\', 't']
  else if c.toNat < 0x20 then
    ['\\', 'u', '0', '0', hexDigit (c.toNat / 16), hexDigit (c.toNat % 16)]
  else [c]

def renderString (text : String) : List Char :=
  '"' :: text.toList.flatMap escapeChar ++ ['"']

def Value.render : Value → List Char
  | .string text => renderString text
  | .bool true => ['t', 'r', 'u', 'e']
  | .bool false => ['f', 'a', 'l', 's', 'e']
  | .number n => Nat.toDigits 10 n

def renderField (field : String × Value) : List Char :=
  [' ', ' '] ++ renderString field.1 ++ [':', ' '] ++ field.2.render

/-- The lines of an object between its braces. -/
def renderFields : Fields → List Char
  | [] => []
  | [field] => renderField field
  | field :: next :: fields => renderField field ++ ',' :: '\n' :: renderFields (next :: fields)

def renderObject (fields : Fields) : String :=
  String.ofList ('\x7b' :: '\n' :: renderFields fields ++ ['\n', '\x7d'])

end MarkerCopy.Json
