import RamFs.Json.Reader

/-!
# RamFs.Json.Codec

Types with a JSON form.  A `Codec` says how a value is written and which values
are read as one.  Records are objects with their members in order; the reader
also takes the members in any order, ignores members it does not know, and
takes an array of exactly the fields.  A choice without data is a string, or an
object whose only member is that name with a null.
-/

namespace RamFs

/-- A type with a JSON form. -/
class Codec (α : Type) where
  toJson : α → Json
  ofJson? : Json → Option α

namespace Json

/-! ## Texts of values -/

/-- The compact text of a value. -/
def encode {α : Type} [Codec α] (a : α) : Text := (Codec.toJson a).render

/-- The value that a text stands for. -/
def decode? (α : Type) [Codec α] (t : Text) : Option α := parse? t >>= Codec.ofJson?

/-! ## Records -/

/-- The object of named fields, in order. -/
def ofFields (fields : List (Text × Json)) : Json :=
  .object (fields.map fun f => (pieces f.1, f.2))

/-- The only member of that name. -/
def field? (members : List (Text × Json)) (name : Text) : Option Json :=
  match members.filter (·.1 == name) with
  | [m] => some m.2
  | _ => none

/-- The values of the named fields, in order. -/
def fields? (names : List Text) : Json → Option (List Json)
  | .array items => if items.length = names.length then some items else none
  | .object members => do
    let members ← members.mapM fun m => (join m.1).map (·, m.2)
    names.mapM (field? members)
  | _ => none

/-! ## Choices -/

/-- A choice with its name and its data, which is null for a bare name. -/
def choice? : Json → Option (Text × Json)
  | .string ps => (join ps).map (·, .null)
  | .object [(k, v)] => (join k).map (·, v)
  | _ => none

/-- A choice that carries no data. -/
def bareChoice? (j : Json) : Option Text :=
  match choice? j with
  | some (name, .null) => some name
  | _ => none

/-- The choice of that name among named values. -/
def oneOf? {α : Type} (table : List (Text × α)) (j : Json) : Option α := do
  let name ← bareChoice? j
  (table.find? (·.1 == name)).map (·.2)

end Json

end RamFs
