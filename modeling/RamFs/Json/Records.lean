import RamFs.Json.Codec
import RamFs.Limits
import RamFs.Node.Entry

/-!
# RamFs.Json.Records

The JSON forms of the types of a volume: limits, handles, kinds, flag sets,
entries, reports and errors.
-/

namespace RamFs

/-! ## Limits -/

namespace Limits

/-- The names of the limits, in order. -/
def fieldNames : List Text :=
  ["max_nodes".toList, "max_children".toList, "max_name_len".toList, "max_content_len".toList]

/-- A number of 64 bits. -/
def word? (j : Json) : Option UInt64 := (j.natBelow? UInt64.size).map UInt64.ofNat

instance : Codec Limits where
  toJson l := Json.ofFields (fieldNames.zip
    ([l.maxNodes, l.maxChildren, l.maxNameLen, l.maxContentLen].map fun n => .ofNat n.toNat))
  ofJson? j :=
    match j.fields? fieldNames with
    | some [a, b, c, d] => do
      some ⟨← word? a, ← word? b, ← word? c, ← word? d⟩
    | _ => none

/-- The text that describes the limits of a volume to its users. -/
def describe (l : Limits) : Text := Json.encode l

end Limits

/-! ## Handles, kinds and flag sets -/

/-- A handle as it is written: a number of 32 bits. -/
structure HandleCode where
  handle : Handle
deriving DecidableEq, Repr

instance : Codec HandleCode where
  toJson h := .ofNat h.handle
  ofJson? j := (j.natBelow? UInt32.size).map HandleCode.mk

/-- The kinds under their names. -/
def Kind.choices : List (Text × Kind) :=
  [("File".toList, .file), ("Directory".toList, .directory)]

/-- The name of a kind as a choice. -/
def Kind.choice : Kind → Text
  | .file => "File".toList
  | .directory => "Directory".toList

instance : Codec Kind where
  toJson k := .ofText k.choice
  ofJson? := Json.oneOf? Kind.choices

instance : Codec Permissions where
  toJson p := .ofText p.text
  ofJson? j := j.text? >>= Permissions.ofText?

instance : Codec Flags where
  toJson f := .ofText f.text
  ofJson? j := j.text? >>= Flags.ofText?

/-! ## Entries and reports -/

namespace Entry

/-- The names of the parts of an entry, in order. -/
def fieldNames : List Text :=
  ["name".toList, "kind".toList, "permissions".toList, "flags".toList]

instance : Codec Entry where
  toJson e := Json.ofFields (fieldNames.zip
    [.ofText e.name, Codec.toJson e.kind, Codec.toJson e.permissions, Codec.toJson e.flags])
  ofJson? j :=
    match j.fields? fieldNames with
    | some [name, kind, permissions, flags] => do
      some ⟨← name.text?, ← Codec.ofJson? kind, ← Codec.ofJson? permissions,
        ← Codec.ofJson? flags⟩
    | _ => none

end Entry

namespace Stat

/-- The names of the parts of a report, in order. -/
def fieldNames : List Text := Entry.fieldNames ++ ["size".toList]

instance : Codec Stat where
  toJson s := Json.ofFields (fieldNames.zip
    [.ofText s.name, Codec.toJson s.kind, Codec.toJson s.permissions, Codec.toJson s.flags,
      .ofNat s.size])
  ofJson? j :=
    match j.fields? fieldNames with
    | some [name, kind, permissions, flags, size] => do
      some ⟨← name.text?, ← Codec.ofJson? kind, ← Codec.ofJson? permissions,
        ← Codec.ofJson? flags, ← size.natBelow? UInt64.size⟩
    | _ => none

end Stat

/-! ## Errors -/

namespace Denied

/-- The denials under their names. -/
def choices : List (Text × Denied) :=
  [("Read".toList, .read), ("Write".toList, .write), ("Execute".toList, .execute),
    ("System".toList, .system)]

/-- The name of a denial as a choice. -/
def choice : Denied → Text
  | .read => "Read".toList
  | .write => "Write".toList
  | .execute => "Execute".toList
  | .system => "System".toList

instance : Codec Denied where
  toJson d := .ofText d.choice
  ofJson? := Json.oneOf? choices

end Denied

namespace FsError

/-- The errors without data under their names. -/
def bareChoices : List (Text × FsError) :=
  [("NotFound".toList, .notFound), ("NotADirectory".toList, .notADirectory),
    ("WrongType".toList, .wrongType), ("AlreadyExists".toList, .alreadyExists),
    ("DirectoryFull".toList, .directoryFull), ("Exhausted".toList, .exhausted),
    ("NotEmpty".toList, .notEmpty), ("InvalidName".toList, .invalidName),
    ("Serialization".toList, .serialization)]

/-- The name of an error as a choice. -/
def choice : FsError → Text
  | .notFound => "NotFound".toList
  | .notADirectory => "NotADirectory".toList
  | .wrongType => "WrongType".toList
  | .alreadyExists => "AlreadyExists".toList
  | .directoryFull => "DirectoryFull".toList
  | .exhausted => "Exhausted".toList
  | .permissionDenied _ => "PermissionDenied".toList
  | .notEmpty => "NotEmpty".toList
  | .invalidValue _ => "InvalidValue".toList
  | .invalidName => "InvalidName".toList
  | .serialization => "Serialization".toList

/-- The data of an error that carries some. -/
def data? : FsError → Option Json
  | .permissionDenied why => some (Codec.toJson why)
  | .invalidValue mode => some (.ofNat mode.toNat)
  | _ => none

/-- A number of 32 bits. -/
def word? (j : Json) : Option UInt32 := (j.natBelow? UInt32.size).map UInt32.ofNat

instance : Codec FsError where
  toJson e :=
    match e.data? with
    | none => .ofText e.choice
    | some data => Json.ofFields [(e.choice, data)]
  ofJson? j :=
    match j.choice? with
    | none => none
    | some (name, data) =>
      if name = "PermissionDenied".toList then (Codec.ofJson? data).map .permissionDenied
      else if name = "InvalidValue".toList then (word? data).map .invalidValue
      else Json.oneOf? bareChoices j

end FsError

end RamFs
