import RamFs.Json.Basic

/-!
# RamFs.Json.Reader

Reading JSON.  `parse?` accepts one value with blanks around it and nothing
after it.  The readers of a value, of the items of an array and of the members
of an object call each other with one unit of fuel less; every second call
consumes a character, so twice the length of the text is enough and `parse?`
shows no fuel.
-/

namespace RamFs

namespace Json

/-! ## Blanks, strings and numbers -/

/-- The blanks between the tokens. -/
def isBlank (c : Char) : Bool := c == ' ' || c == '\n' || c == '\t' || c == '\r'

/-- A text without the blanks it starts with. -/
def skip (t : Text) : Text := t.dropWhile isBlank

/-- The character of an escape of one letter. -/
def shortEscape? : Char → Option Char
  | '"' => some '"'
  | '\\' => some '\\'
  | '/' => some '/'
  | 'b' => some '\x08'
  | 'f' => some '\x0c'
  | 'n' => some '\n'
  | 'r' => some '\r'
  | 't' => some '\t'
  | _ => none

/-- The pieces of a string up to its closing quote, and what follows it.
Control characters must be escaped. -/
def readString : Text → Option (List Piece × Text)
  | [] => none
  | '"' :: t => some ([], t)
  | '\\' :: 'u' :: a :: b :: c :: d :: t => do
    let code ← Text.hexDigits? [a, b, c, d]
    let (ps, rest) ← readString t
    some (.unit code :: ps, rest)
  | '\\' :: e :: t => do
    let c ← shortEscape? e
    let (ps, rest) ← readString t
    some (.char c :: ps, rest)
  | c :: t =>
    if c.toNat < 0x20 then none
    else do
      let (ps, rest) ← readString t
      some (.char c :: ps, rest)

/-- The characters that numbers are spelled with. -/
def isNumberChar (c : Char) : Bool :=
  c.isDigit || c == '-' || c == '+' || c == '.' || c == 'e' || c == 'E'

/-- The rest of a text after the digits it starts with; there must be one. -/
def dropDigits? (t : Text) : Option Text :=
  if (t.takeWhile Char.isDigit).isEmpty then none else some (t.dropWhile Char.isDigit)

/-- The rest of a text after the whole part of a number: a single zero, or
digits that start with another one. -/
def dropWhole? : Text → Option Text
  | '0' :: t => some t
  | t => dropDigits? t

/-- The rest of a text after the fraction it may start with. -/
def dropFraction? : Text → Option Text
  | '.' :: t => dropDigits? t
  | t => some t

/-- The rest of a text after the sign it may start with. -/
def dropSign : Text → Text
  | '-' :: t => t
  | '+' :: t => t
  | t => t

/-- The rest of a text after the exponent it may start with. -/
def dropExponent? : Text → Option Text
  | 'e' :: t => dropDigits? (dropSign t)
  | 'E' :: t => dropDigits? (dropSign t)
  | t => some t

/-- A text without the minus sign it may start with. -/
def dropMinus : Text → Text
  | '-' :: t => t
  | t => t

/-- Whether a text is a number: a whole part after an optional minus sign, then
an optional fraction and an optional exponent. -/
def isNumber (t : Text) : Bool :=
  (dropWhole? (dropMinus t) >>= dropFraction? >>= dropExponent?) == some []

/-- The number a text starts with.  It takes every character that numbers are
spelled with, because none of them may follow a number. -/
def readNumber (t : Text) : Option (Json × Text) :=
  let spelling := t.takeWhile isNumberChar
  if isNumber spelling then some (.number spelling, t.dropWhile isNumberChar) else none

/-! ## Values -/

mutual

/-- The value a text starts with, and what follows it. -/
def readValue : Nat → Text → Option (Json × Text)
  | 0, _ => none
  | fuel + 1, t =>
    match t with
    | 'n' :: 'u' :: 'l' :: 'l' :: t => some (.null, t)
    | 't' :: 'r' :: 'u' :: 'e' :: t => some (.bool true, t)
    | 'f' :: 'a' :: 'l' :: 's' :: 'e' :: t => some (.bool false, t)
    | '"' :: t => (readString t).map fun r => (.string r.1, r.2)
    | '[' :: t =>
      match skip t with
      | ']' :: t => some (.array [], t)
      | t => (readItems fuel t).map fun r => (.array r.1, r.2)
    | '\x7b' :: t =>
      match skip t with
      | '\x7d' :: t => some (.object [], t)
      | t => (readMembers fuel t).map fun r => (.object r.1, r.2)
    | t => readNumber t

/-- The values up to the bracket that closes an array. -/
def readItems : Nat → Text → Option (List Json × Text)
  | 0, _ => none
  | fuel + 1, t =>
    match readValue fuel t with
    | none => none
    | some (v, t) =>
      match skip t with
      | ']' :: t => some ([v], t)
      | ',' :: t => (readItems fuel (skip t)).map fun r => (v :: r.1, r.2)
      | _ => none

/-- The members up to the brace that closes an object. -/
def readMembers : Nat → Text → Option (List (List Piece × Json) × Text)
  | 0, _ => none
  | fuel + 1, t =>
    match t with
    | '"' :: t =>
      match readString t with
      | none => none
      | some (k, t) =>
        match skip t with
        | ':' :: t =>
          match readValue fuel (skip t) with
          | none => none
          | some (v, t) =>
            match skip t with
            | '\x7d' :: t => some ([(k, v)], t)
            | ',' :: t => (readMembers fuel (skip t)).map fun r => ((k, v) :: r.1, r.2)
            | _ => none
        | _ => none
    | _ => none

end

/-- The value that a whole text is. -/
def parse? (t : Text) : Option Json :=
  match readValue (2 * t.length + 1) (skip t) with
  | some (v, rest) => if skip rest = [] then some v else none
  | none => none

end Json

end RamFs
