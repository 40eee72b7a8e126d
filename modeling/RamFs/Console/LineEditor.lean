import RamFs.Text.Utf8

/-!
# RamFs.Console.LineEditor

Reading one edited line from the octets of a console.  A carriage return or a
line feed ends the line.  Backspace and delete take the last character back,
all of its octets together.  Other control octets are ignored, and octets past
the limit of the line are dropped.  What is typed is echoed unless the console
shows it by itself.
-/

namespace RamFs

namespace LineEditor

/-! ## Octets with a meaning -/

/-- Whether an octet ends a line. -/
def endsLine (b : UInt8) : Bool := b == 0x0D || b == 0x0A

/-- Whether an octet takes the last character back. -/
def erases (b : UInt8) : Bool := b == 0x08 || b == 0x7F

/-- Whether an octet is a control octet without a meaning here. -/
def isIgnored (b : UInt8) : Bool := b < 0x20

/-- Whether an octet is one that continues a character in UTF-8. -/
def isContinuation (b : UInt8) : Bool := b &&& 0xC0 == 0x80

/-- What is echoed for the end of a line. -/
def lineEndEcho : Bytes := [0x0D, 0x0A]

/-- What is echoed for a character taken back: the cursor steps back, the
character is blanked, and the cursor steps back again. -/
def eraseEcho : Bytes := [0x08, 0x20, 0x08]

/-! ## The buffer -/

/-- The octets a line may hold in a buffer of the given size; one is reserved. -/
def limitOf (capacity : Nat) : Nat := capacity - 1

/-- The size of the buffer of a session. -/
def defaultCapacity : Nat := 100

/-- Takes the last character off a buffer whose last octet comes first: the
octets that continue it and the one it starts with. -/
def eraseLast (held : Bytes) : Bytes := (held.dropWhile isContinuation).tail

/-! ## Lines -/

/-- What reading a line gives: the octets of the line, or none if there was no
more input, what was echoed meanwhile, and the input that is left. -/
structure Reading where
  line : Option Bytes
  echo : Bytes
  rest : Bytes
deriving DecidableEq, Repr

/-- A reading with something echoed before it. -/
def Reading.after (echoed : Bytes) (r : Reading) : Reading := { r with echo := echoed ++ r.echo }

/-- Reads on with the octets held so far, the last one first. -/
def readFrom (limit : Nat) (echoes : Bool) (held : Bytes) : Bytes → Reading
  | [] => ⟨if held = [] then none else some held.reverse, [], []⟩
  | b :: input =>
    if endsLine b then
      ⟨some held.reverse, if echoes then lineEndEcho else [], input⟩
    else if erases b then
      (readFrom limit echoes (eraseLast held) input).after
        (if echoes ∧ held ≠ [] then eraseEcho else [])
    else if isIgnored b then
      readFrom limit echoes held input
    else if held.length < limit then
      (readFrom limit echoes (b :: held) input).after (if echoes then [b] else [])
    else
      readFrom limit echoes held input

/-- Reads one line. -/
def read (limit : Nat) (echoes : Bool) (input : Bytes) : Reading := readFrom limit echoes [] input

/-- The text of the line that was read. -/
def Reading.text (r : Reading) : Option Text := r.line.map Text.decode

/-! ## Input is used up -/

theorem length_rest_readFrom_le (limit : Nat) (echoes : Bool) (held input : Bytes) :
    (readFrom limit echoes held input).rest.length ≤ input.length := by
  fun_induction readFrom limit echoes held input with
  | case1 => exact Nat.le_refl _
  | case2 => exact Nat.le_succ _
  | case3 _ _ _ _ _ ih => exact Nat.le_succ_of_le ih
  | case4 _ _ _ _ _ _ ih => exact Nat.le_succ_of_le ih
  | case5 _ _ _ _ _ _ _ ih => exact Nat.le_succ_of_le ih
  | case6 _ _ _ _ _ _ _ ih => exact Nat.le_succ_of_le ih

/-- Reading uses up input if there is any. -/
theorem length_rest_readFrom_cons_lt (limit : Nat) (echoes : Bool) (held : Bytes) (b : UInt8)
    (input : Bytes) : (readFrom limit echoes held (b :: input)).rest.length < input.length + 1 := by
  have hrest (h : Bytes) := Nat.lt_succ_of_le (length_rest_readFrom_le limit echoes h input)
  unfold readFrom
  split
  · exact Nat.lt_succ_self _
  split
  · exact hrest _
  split
  · exact hrest _
  split
  · exact hrest _
  · exact hrest _

/-- A line uses up input, if only the octet that ends it. -/
theorem length_rest_lt {limit : Nat} {echoes : Bool} {input : Bytes} {line : Bytes}
    (h : (read limit echoes input).line = some line) :
    (read limit echoes input).rest.length < input.length := by
  cases input with
  | nil => cases h
  | cons b input => exact length_rest_readFrom_cons_lt limit echoes [] b input

end LineEditor

end RamFs
