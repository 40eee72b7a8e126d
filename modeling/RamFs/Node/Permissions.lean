import RamFs.Node.BitNames

/-!
# RamFs.Node.Permissions

The permission triad of a node and its protection flags.  On a file, read and
write guard the content and execute marks a script; on a directory, read
guards listing, write guards adding and removing entries, and execute guards
entering.  A numeric mode from 0 to 7 names each triad.
-/

namespace RamFs

/-! ## The triad -/

/-- The permission bits of a node. -/
structure Permissions where
  bits : UInt8
deriving DecidableEq, Repr

namespace Permissions

def none : Permissions := ⟨0⟩
def execute : Permissions := ⟨1⟩
def write : Permissions := ⟨2⟩
def read : Permissions := ⟨4⟩

/-- What a fresh node and a plain file have: `rw-`. -/
def readWrite : Permissions := ⟨6⟩

/-- What a script that may be read has: `r-x`. -/
def readExecute : Permissions := ⟨5⟩

/-- What a fresh directory has: `rwx`. -/
def all : Permissions := ⟨7⟩

/-- Whether every bit of `q` is set in `p`. -/
def contains (p q : Permissions) : Bool := BitNames.holds p.bits q.bits

def canRead (p : Permissions) : Bool := p.contains read
def canWrite (p : Permissions) : Bool := p.contains write
def canExecute (p : Permissions) : Bool := p.contains execute

/-- The triad of a numeric mode; only 0 to 7 are modes. -/
def ofMode? (mode : UInt32) : Option Permissions :=
  if mode ≤ 7 then some ⟨mode.toUInt8⟩ else Option.none

/-- The triad as listings show it. -/
def triad (p : Permissions) : Text :=
  [if p.canRead then 'r' else '-', if p.canWrite then 'w' else '-',
    if p.canExecute then 'x' else '-']

/-- The names of the permission bits. -/
def names : BitNames :=
  [("READ".toList, read.bits), ("WRITE".toList, write.bits), ("EXECUTE".toList, execute.bits)]

/-- The set as a text of names. -/
def text (p : Permissions) : Text := names.render p.bits

/-- The set that a text of names stands for. -/
def ofText? (t : Text) : Option Permissions := (names.parse? t).map Permissions.mk

end Permissions

/-! ## Protection flags -/

/-- The protection flags of a node. -/
structure Flags where
  bits : UInt8
deriving DecidableEq, Repr

namespace Flags

def none : Flags := ⟨0⟩

/-- Marks an entry that cannot be removed and whose permissions cannot change. -/
def system : Flags := ⟨1⟩

/-- Marks an entry that plain listings leave out. -/
def hidden : Flags := ⟨2⟩

/-- Whether every bit of `g` is set in `f`. -/
def contains (f g : Flags) : Bool := BitNames.holds f.bits g.bits

def isSystem (f : Flags) : Bool := f.contains system
def isHidden (f : Flags) : Bool := f.contains hidden

/-- The flags of two sets together. -/
def union (f g : Flags) : Flags := ⟨f.bits ||| g.bits⟩

/-- The flags as listings show them. -/
def marks (f : Flags) : Text :=
  [if f.isSystem then 'S' else '-', if f.isHidden then 'H' else '-']

/-- The names of the flags. -/
def names : BitNames := [("SYSTEM".toList, system.bits), ("HIDDEN".toList, hidden.bits)]

/-- The set as a text of names. -/
def text (f : Flags) : Text := names.render f.bits

/-- The set that a text of names stands for. -/
def ofText? (t : Text) : Option Flags := (names.parse? t).map Flags.mk

end Flags

end RamFs
