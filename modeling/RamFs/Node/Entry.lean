import RamFs.Node.Basic

/-!
# RamFs.Node.Entry

What listings and inspections report about a node, and the text they show:
an `Entry` is one line of a listing, a `Stat` is the longer account of a
single node with its size.
-/

namespace RamFs

/-! ## Entries of a listing -/

/-- What a listing reports about a node. -/
structure Entry where
  name : Text
  kind : Kind
  permissions : Permissions
  flags : Flags
deriving DecidableEq, Repr

namespace Entry

/-- The entry of a node. -/
def ofNode (n : Node) : Entry := ⟨n.name, n.kind, n.permissions, n.flags⟩

/-- One line of a listing, such as `drwx S- name/`. -/
def line (e : Entry) : Text :=
  e.kind.marker :: e.permissions.triad ++ [' '] ++ e.flags.marks ++ [' '] ++ e.name ++
    match e.kind with
    | .file => []
    | .directory => ['/']

end Entry

/-! ## Inspections -/

/-- What an inspection reports about a node; `size` counts the octets of a file
or the entries of a directory. -/
structure Stat where
  name : Text
  kind : Kind
  permissions : Permissions
  flags : Flags
  size : Nat
deriving DecidableEq, Repr

namespace Stat

/-- The report on a node under a name. -/
def ofNode (name : Text) (n : Node) : Stat := ⟨name, n.kind, n.permissions, n.flags, n.size⟩

/-- The names of the flags that are set, each after a blank. -/
def flagWords (f : Flags) : Text :=
  (if f.bits = 0 then " none".toList else []) ++
    (if f.isSystem then " system".toList else []) ++
    (if f.isHidden then " hidden".toList else [])

/-- The lines of the report. -/
def lines (s : Stat) : List Text :=
  ["  Name: ".toList ++ s.name,
    "  Type: ".toList ++ s.kind.text,
    "  Perms: ".toList ++ s.permissions.triad ++ " (".toList ++
      Text.ofNat s.permissions.bits.toNat ++ [')'],
    "  Flags:".toList ++ flagWords s.flags,
    match s.kind with
    | .file => "  Size: ".toList ++ Text.ofNat s.size ++ " bytes".toList
    | .directory => "  Children: ".toList ++ Text.ofNat s.size]

/-- The report as one text. -/
def text (s : Stat) : Text := ['\n'].intercalate s.lines

end Stat

end RamFs
