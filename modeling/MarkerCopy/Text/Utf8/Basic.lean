/-! UTF-8 as lists of bytes. Reading goes from the left, one item for each character and one for
each ill-formed piece, where a piece is as long as it can still begin a character. -/

namespace MarkerCopy.Utf8

def encode (text : List Char) : List UInt8 :=
  text.flatMap String.utf8EncodeChar

/-- How many bytes follow the first byte of a longer character, and the least and the greatest
first of them. The bounds leave out longer spellings of a character, surrogates, and what is above
the last code point. -/
def lead? (a : UInt8) : Option (Nat × UInt8 × UInt8) :=
  if a < 0xC2 then none
  else if a < 0xE0 then some (1, 0x80, 0xBF)
  else if a < 0xF0 then
    some (2, if a = 0xE0 then 0xA0 else 0x80, if a = 0xED then 0x9F else 0xBF)
  else if a < 0xF5 then
    some (3, if a = 0xF0 then 0x90 else 0x80, if a = 0xF4 then 0x8F else 0xBF)
  else none

/-- The bytes, `n` at most, that go on with a character whose next byte is within bounds. -/
def tails : Nat → UInt8 → UInt8 → List UInt8 → List UInt8
  | 0, _, _, _ => []
  | _, _, _, [] => []
  | n + 1, low, high, b :: rest =>
    if low ≤ b ∧ b ≤ high then b :: tails n 0x80 0xBF rest else []

/-- The character with the given bits, of which each further byte adds six. -/
def assemble (bits : Nat) (bytes : List UInt8) : Char :=
  Char.ofNat (bytes.foldl (fun v b => v * 64 + b.toNat % 64) bits)

/-- The item that begins with `a`, and how many of the bytes after `a` belong to it. -/
def next (a : UInt8) (rest : List UInt8) : Option Char × Nat :=
  if a < 0x80 then (some (assemble a.toNat []), 0)
  else
    match lead? a with
    | none => (none, 0)
    | some (n, low, high) =>
      let bytes := tails n low high rest
      (if bytes.length = n then some (assemble (a.toNat % (64 >>> n)) bytes) else none,
        bytes.length)

/-- The items of some bytes, of which the first `skip` belong to an item already read. -/
def scanFrom : Nat → List UInt8 → List (Option Char)
  | _, [] => []
  | skip + 1, _ :: rest => scanFrom skip rest
  | 0, a :: rest => (next a rest).1 :: scanFrom (next a rest).2 rest

def scan (bytes : List UInt8) : List (Option Char) :=
  scanFrom 0 bytes

/-- The text of well-formed bytes. -/
def decode? (bytes : List UInt8) : Option (List Char) :=
  (scan bytes).mapM id

/-- The text of any bytes, with U+FFFD for each ill-formed piece. -/
def decodeLossy (bytes : List UInt8) : List Char :=
  (scan bytes).map (·.getD '\uFFFD')

theorem encode_nil : encode [] = [] := rfl

theorem encode_cons (c : Char) (text : List Char) :
    encode (c :: text) = String.utf8EncodeChar c ++ encode text := rfl

theorem encode_append (s t : List Char) : encode (s ++ t) = encode s ++ encode t :=
  List.flatMap_append

end MarkerCopy.Utf8
