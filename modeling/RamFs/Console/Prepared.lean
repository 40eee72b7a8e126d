import RamFs.Text.Number
import RamFs.Text.Search

/-!
# RamFs.Console.Prepared

A console with a prepared input that keeps all it is given to show, for running
a session without a terminal.
-/

namespace RamFs

/-- Something to show: a text as it is, or a number in decimal. -/
inductive Shown
  | text (t : Text)
  | number (n : Nat)
deriving DecidableEq, Repr

/-- A prepared console: the input that waits, and the octets shown so far. -/
structure Prepared where
  pending : Bytes
  written : Bytes
deriving DecidableEq, Repr

namespace Prepared

/-- A console with an input and nothing shown. -/
def ofInput (input : Bytes) : Prepared := ⟨input, []⟩

/-- Adds to the input that waits. -/
def push (c : Prepared) (input : Bytes) : Prepared := { c with pending := c.pending ++ input }

/-- Shows octets as they are. -/
def write (c : Prepared) (bytes : Bytes) : Prepared := { c with written := c.written ++ bytes }

/-- Shows a text or a number. -/
def display (c : Prepared) : Shown → Prepared
  | .text t => c.write (Text.encode t)
  | .number n => c.write (Text.encode (Text.ofNat n))

/-- Takes the next octet of the input, if one waits. -/
def read (c : Prepared) : Option UInt8 × Prepared :=
  (c.pending.head?, { c with pending := c.pending.tail })

/-- What has been shown, as a text. -/
def shown (c : Prepared) : Text := Text.decode c.written

/-- Whether a text is part of what has been shown. -/
def hasShown (c : Prepared) (sub : Text) : Bool := Text.occursIn sub c.shown

end Prepared

end RamFs
