import RamFs.Error
import RamFs.Node.Permissions

/-!
# RamFs.Node.Basic

The nodes of a volume.  A node is a file with its content or a directory with
the handles of its entries, so neither can carry what belongs to the other.
Handles are numbers handed out from zero on; every node but the root points
back to the directory that holds it.
-/

namespace RamFs

/-- The number of a node slot. -/
abbrev Handle := Nat

/-! ## Kinds and bodies -/

/-- What a node is. -/
inductive Kind
  | file
  | directory
deriving DecidableEq, Repr

namespace Kind

/-- The name of a kind. -/
def text : Kind → Text
  | .file => "file".toList
  | .directory => "directory".toList

/-- The character that marks a kind in listings. -/
def marker : Kind → Char
  | .file => '-'
  | .directory => 'd'

end Kind

/-- What a node holds: the content of a file, or the entries of a directory in
the order they were added. -/
inductive Body
  | file (content : Bytes)
  | directory (children : List Handle)
deriving DecidableEq, Repr

namespace Body

/-- The body of a fresh node. -/
def empty : Kind → Body
  | .file => .file []
  | .directory => .directory []

def kind : Body → Kind
  | .file _ => .file
  | .directory _ => .directory

/-- The octets of a file; a directory has none. -/
def content : Body → Bytes
  | .file content => content
  | .directory _ => []

/-- The entries of a directory; a file has none. -/
def children : Body → List Handle
  | .file _ => []
  | .directory children => children

/-- The number of octets of a file or of entries of a directory. -/
def size (b : Body) : Nat := b.content.length + b.children.length

/-- A directory with its entries changed; a file stays as it is. -/
def mapChildren (f : List Handle → List Handle) : Body → Body
  | .file content => .file content
  | .directory children => .directory (f children)

/-- An empty node holds nothing. -/
@[simp] theorem kind_empty (k : Kind) : (empty k).kind = k := by cases k <;> rfl
@[simp] theorem content_empty (k : Kind) : (empty k).content = [] := by cases k <;> rfl
@[simp] theorem children_empty (k : Kind) : (empty k).children = [] := by cases k <;> rfl

/-- Other children make no other kind. -/
@[simp] theorem kind_mapChildren (f : List Handle → List Handle) (b : Body) :
    (b.mapChildren f).kind = b.kind := by
  cases b <;> rfl

@[simp] theorem content_mapChildren (f : List Handle → List Handle) (b : Body) :
    (b.mapChildren f).content = b.content := by
  cases b <;> rfl

end Body

/-! ## Nodes -/

/-- A node of a volume; a fresh one is an empty file without a name. -/
structure Node where
  name : Text := []
  body : Body := .file []
  parent : Option Handle := none
  permissions : Permissions := .readWrite
  flags : Flags := .none
deriving DecidableEq, Repr

namespace Node

instance : Inhabited Node := ⟨{}⟩

def kind (n : Node) : Kind := n.body.kind
def content (n : Node) : Bytes := n.body.content
def children (n : Node) : List Handle := n.body.children
def size (n : Node) : Nat := n.body.size
def isFile (n : Node) : Bool := n.kind == .file
def isDirectory (n : Node) : Bool := n.kind == .directory

/-! ## Checks -/

/-- Succeeds if the read bit is set. -/
def requireRead (n : Node) : Except FsError Unit :=
  if n.permissions.canRead then .ok () else .error (.permissionDenied .read)

/-- Succeeds if the write bit is set. -/
def requireWrite (n : Node) : Except FsError Unit :=
  if n.permissions.canWrite then .ok () else .error (.permissionDenied .write)

/-- Succeeds if the execute bit is set. -/
def requireExecute (n : Node) : Except FsError Unit :=
  if n.permissions.canExecute then .ok () else .error (.permissionDenied .execute)

/-- Succeeds unless the system flag is set, whatever the permission bits are. -/
def requireUnprotected (n : Node) : Except FsError Unit :=
  if n.flags.isSystem then .error (.permissionDenied .system) else .ok ()

/-- Succeeds if the node is of the given kind. -/
def requireKind (n : Node) (k : Kind) : Except FsError Unit :=
  if n.kind = k then .ok () else .error .wrongType

end Node

end RamFs
