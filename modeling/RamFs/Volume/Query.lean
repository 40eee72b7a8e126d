import RamFs.Node.Entry
import RamFs.Volume.Walk

/-!
# RamFs.Volume.Query

The operations that only look at a volume: listing a directory, reading a file,
inspecting a node, and taking the script out of an executable file.
-/

namespace RamFs

namespace Volume

/-- The entries of a directory in the order they were added; hidden ones only on
request. -/
def ls (v : Volume) (path : Text) (all : Bool) : Except FsError (List Entry) := do
  let dir ← v.lookup path
  (v.node dir).requireRead
  let shown := ((v.children dir).map v.node).filter fun n => all || !n.flags.isHidden
  .ok (shown.map Entry.ofNode)

/-- The content of a file. -/
def cat (v : Volume) (path : Text) : Except FsError Bytes := do
  let h ← v.locate path
  (v.node h).requireKind .file
  (v.node h).requireRead
  .ok (v.node h).content

/-- The report on a node; the root goes by the name of a slash. -/
def stat (v : Volume) (path : Text) : Except FsError Stat := do
  let h ← v.locate path
  .ok (Stat.ofNode (if h = root then [Path.separator] else (v.node h).name) (v.node h))

/-- The content of a file with the execute bit.  The read bit is not needed. -/
def executable? (v : Volume) (path : Text) : Option Bytes :=
  match v.locate path with
  | .error _ => none
  | .ok h =>
    if (v.node h).isFile && (v.node h).permissions.canExecute then some (v.node h).content
    else none

end Volume

end RamFs
