import RamFs.Volume.Basic

/-!
# RamFs.Volume.Walk

Walking a volume.  A path starts at the root if it is absolute and at the
current directory otherwise; its components are taken from left to right.  A
dot stays, two dots climb and stop at the top, and any other component names an
entry of the directory reached so far.  A file is no place to go on from.

`lookup` takes a path to a directory.  `locate` takes it to a node of either
kind, for its last component only.  `lineage` climbs from a node to the top,
which gives a node its absolute path.
-/

namespace RamFs

namespace Volume

/-! ## Down a path -/

/-- The directory a path starts from. -/
def startOf (v : Volume) (path : Text) : Handle := if Path.isAbsolute path then root else v.cwd

/-- The parent of a node, or the node itself at the top. -/
def above (v : Volume) (h : Handle) : Handle := (v.parent h).getD h

/-- The directory that one component leads to, or none if it is missing. -/
def step (v : Volume) (dir : Handle) (component : Text) : Except FsError (Option Handle) :=
  if component = Path.here then .ok (some dir)
  else if component = Path.up then .ok (some (v.above dir))
  else
    match v.child? dir (v.cutName component) with
    | none => .ok none
    | some h => if (v.node h).isFile then .error .notADirectory else .ok (some h)

/-- The directory that components lead to. -/
def descend (v : Volume) (dir : Handle) : List Text → Except FsError Handle
  | [] => .ok dir
  | c :: cs =>
    match v.step dir c with
    | .error e => .error e
    | .ok none => .error .notFound
    | .ok (some next) => v.descend next cs

/-- The directory that a path names. -/
def lookup (v : Volume) (path : Text) : Except FsError Handle :=
  v.descend (v.startOf path) (Path.components path)

/-- The node that a last component names in a directory. -/
def leaf (v : Volume) (dir : Handle) (name : Text) : Except FsError Handle :=
  if name = [] ∨ name = Path.here then .ok dir
  else if name = Path.up then .ok (v.above dir)
  else
    match v.child? dir (v.cutName name) with
    | none => .error .notFound
    | some h => .ok h

/-- The file or directory that a path names. -/
def locate (v : Volume) (path : Text) : Except FsError Handle :=
  match v.lookup (Path.splitParent path).1 with
  | .error e => .error e
  | .ok dir => v.leaf dir (Path.splitParent path).2

/-! ## Up to the top -/

/-- A node and the nodes above it, as many as there is fuel for. -/
def climb (v : Volume) : Nat → Handle → List Handle
  | 0, h => [h]
  | fuel + 1, h =>
    match v.parent h with
    | none => [h]
    | some dir => h :: v.climb fuel dir

/-- A node and the nodes above it.  A parent has a smaller handle, so the climb
is over after as many steps as the handle says. -/
def lineage (v : Volume) (h : Handle) : List Handle := v.climb h h

/-- Whether a node can be reached from the root. -/
def isAttached (v : Volume) (h : Handle) : Bool := (v.lineage h).getLast? == some root

/-- The names from the top, which has none, down to a node. -/
def namesOf (v : Volume) (h : Handle) : List Text :=
  ((v.lineage h).dropLast.map fun a => (v.node a).name).reverse

/-- The absolute path of a node. -/
def pathOf (v : Volume) (h : Handle) : Text := Path.render (v.namesOf h)

/-- The absolute path of the current directory. -/
def pwd (v : Volume) : Text := v.pathOf v.cwd

/-! ## Over the whole tree -/

/-- A node and everything below it, each with its depth, parents first, as far
down as there is fuel for. -/
def outlineFrom (v : Volume) : Nat → Nat → Handle → List (Nat × Handle)
  | 0, _, _ => []
  | fuel + 1, depth, h => (depth, h) :: (v.children h).flatMap (v.outlineFrom fuel (depth + 1))

/-- Every node that can be reached from the root, with its depth.  No path down
is longer than the number of slots in use. -/
def outline (v : Volume) : List (Nat × Handle) := v.outlineFrom v.used 0 root

end Volume

end RamFs
