/-!
# RamFs.Limits

The fixed limits of a volume, chosen when it is made and never changed.
-/

namespace RamFs

/-- The limits of a volume. -/
structure Limits where
  /-- Node slots, the root and the system entries included. -/
  maxNodes : UInt64 := 64
  /-- Entries of one directory. -/
  maxChildren : UInt64 := 16
  /-- Octets kept of a name. -/
  maxNameLen : UInt64 := 15
  /-- Octets kept of the content of a file. -/
  maxContentLen : UInt64 := 127
deriving DecidableEq, Repr

end RamFs
