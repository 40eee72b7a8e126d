import RamFs.Text.Number

/-!
# RamFs.Json.Basic

JSON values and their compact form.  A number is kept as it is spelled and a
string as the pieces it is spelled with, because an escape may name half of a
surrogate pair: such a string is well formed, yet it denotes a text only if its
halves pair up (`text?`).  Writing a text escapes quotes, backslashes and
control characters and nothing else.
-/

namespace RamFs

/-! ## Values -/

/-- One piece of a string: a character, or an escaped UTF-16 unit. -/
inductive Piece
  | char (c : Char)
  | unit (code : Nat)
deriving DecidableEq, Repr

/-- A JSON value. -/
inductive Json
  | null
  | bool (b : Bool)
  | number (spelling : Text)
  | string (pieces : List Piece)
  | array (items : List Json)
  | object (members : List (List Piece × Json))

namespace Json

/-! ## Strings and texts -/

/-- Whether a unit is the first half of a surrogate pair. -/
def isHigh (code : Nat) : Bool := 0xD800 ≤ code && code ≤ 0xDBFF

/-- Whether a unit is the second half of a surrogate pair. -/
def isLow (code : Nat) : Bool := 0xDC00 ≤ code && code ≤ 0xDFFF

/-- The character of a surrogate pair. -/
def pair (high low : Nat) : Char :=
  Char.ofNat (0x10000 + (high - 0xD800) * 0x400 + (low - 0xDC00))

/-- The text that the pieces of a string denote, if every half of a surrogate
pair stands beside the other half. -/
def join : List Piece → Option Text
  | [] => some []
  | .char c :: ps => (join ps).map (c :: ·)
  | .unit high :: .unit low :: ps =>
    if isHigh high then
      if isLow low then (join ps).map (pair high low :: ·) else none
    else if isLow high then none
    else (join (.unit low :: ps)).map (Char.ofNat high :: ·)
  | .unit code :: ps =>
    if isHigh code || isLow code then none else (join ps).map (Char.ofNat code :: ·)

/-- The pieces of a text. -/
def pieces (t : Text) : List Piece := t.map .char

/-- The string of a text. -/
def ofText (t : Text) : Json := .string (pieces t)

/-- The text of a string. -/
def text? : Json → Option Text
  | .string ps => join ps
  | _ => none

/-! ## Numbers -/

/-- The number of a natural. -/
def ofNat (n : Nat) : Json := .number (Text.ofNat n)

/-- The natural below `bound` that a value is: a number spelled with digits
alone. -/
def natBelow? (bound : Nat) : Json → Option Nat
  | .number spelling => (Text.digits? spelling).filter (· < bound)
  | _ => none

@[simp] theorem natBelow?_ofNat {bound n : Nat} (h : n < bound) :
    natBelow? bound (ofNat n) = some n := by
  simp [ofNat, natBelow?, Option.filter, h]

/-! ## The compact form -/

/-- Four hexadecimal digits. -/
def hex4 (code : Nat) : Text :=
  [Nat.digitChar (code / 4096 % 16), Nat.digitChar (code / 256 % 16),
    Nat.digitChar (code / 16 % 16), Nat.digitChar (code % 16)]

/-- A character inside a string. -/
def renderChar (c : Char) : Text :=
  match c with
  | '"' => ['\\', '"']
  | '\\' => ['\\', '\\']
  | '\x08' => ['\\', 'b']
  | '\x0c' => ['\\', 'f']
  | '\n' => ['\\', 'n']
  | '\r' => ['\\', 'r']
  | '\t' => ['\\', 't']
  | c => if c.toNat < 0x20 then '\\' :: 'u' :: hex4 c.toNat else [c]

/-- A piece inside a string. -/
def renderPiece : Piece → Text
  | .char c => renderChar c
  | .unit code => '\\' :: 'u' :: hex4 code

/-- A string with its quotes. -/
def renderString (ps : List Piece) : Text := '"' :: ps.flatMap renderPiece ++ ['"']

mutual

/-- The compact form of a value: no blanks, members in order. -/
def render : Json → Text
  | .null => "null".toList
  | .bool true => "true".toList
  | .bool false => "false".toList
  | .number spelling => spelling
  | .string ps => renderString ps
  | .array items => '[' :: renderItems items ++ [']']
  | .object members => '\x7b' :: renderMembers members ++ ['\x7d']

/-- Values with commas between them. -/
def renderItems : List Json → Text
  | [] => []
  | [v] => render v
  | v :: vs => render v ++ ',' :: renderItems vs

/-- Members with commas between them. -/
def renderMembers : List (List Piece × Json) → Text
  | [] => []
  | [(k, v)] => renderString k ++ ':' :: render v
  | (k, v) :: ms => renderString k ++ ':' :: render v ++ ',' :: renderMembers ms

end

end Json

end RamFs
