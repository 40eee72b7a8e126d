import RamFs.Text.Blank
import RamFs.Text.Number

/-!
# RamFs.Node.BitNames

Sets of named bits as texts.  The names of the bits that are set are joined by
bars in the order of a table; bits without a name follow as one hexadecimal
number, so no set is lost in writing.  The reader takes names and numbers in
any order, with blanks around them.
-/

namespace RamFs

/-- The names of single bits, in the order they are written. -/
abbrev BitNames := List (Text × UInt8)

namespace BitNames

/-- Whether every bit of `part` is set in `bits`. -/
def holds (bits part : UInt8) : Bool := bits &&& part == part

/-- The bits that have a name. -/
def known (table : BitNames) : UInt8 := table.foldl (fun acc row => acc ||| row.2) 0

/-- The mark that starts a hexadecimal number. -/
def hexMark : Text := ['0', 'x']

/-! ## Writing -/

/-- The words of a set: the names of its bits, then the rest as a number. -/
def words (table : BitNames) (bits : UInt8) : List Text :=
  let rest := bits &&& ~~~ known table
  (table.filter fun row => holds bits row.2).map Prod.fst ++
    if rest == 0 then [] else [hexMark ++ Text.ofNatHex rest.toNat]

/-- The text of a set. -/
def render (table : BitNames) (bits : UInt8) : Text :=
  [' ', '|', ' '].intercalate (words table bits)

/-! ## Reading -/

/-- The bits that one word of a set stands for: those of a hexadecimal number
of one octet, or the bit of that exact name. -/
def ofWord? (table : BitNames) : Text → Option UInt8
  | '0' :: 'x' :: digits =>
    ((Text.hexDigits? (Text.dropPlus digits)).filter (· < 256)).map UInt8.ofNat
  | name => (table.find? fun row => row.1 == name).map Prod.snd

/-- The set that a text stands for.  A blank text is the empty set, and no part
between bars may be empty. -/
def parse? (table : BitNames) (t : Text) : Option UInt8 :=
  if Text.trim t = [] then some 0
  else ((t.splitOn '|').mapM fun part => ofWord? table (Text.trim part)).map
    fun parts => parts.foldl (· ||| ·) 0

end BitNames

end RamFs
