import RamFs.Limits
import RamFs.Path
import RamFs.Pool
import RamFs.Text.Cut

/-!
# RamFs.Volume.Basic

A volume: a tree of nodes in a pool, with a current directory.  Handle 0 is the
root, the one node without a parent among those that can be reached.  Removing
an entry only takes it off its directory; the slot stays in use.

This module holds the state and the two edits on links: `createChild` appends a
new entry to a directory and `detach` takes an entry off.
-/

namespace RamFs

/-- A volume. -/
structure Volume where
  limits : Limits
  pool : Pool
  cwd : Handle
deriving DecidableEq, Repr

namespace Volume

/-- The handle of the root. -/
def root : Handle := 0

/-! ## Reading nodes -/

/-- The node under a handle. -/
def get? (v : Volume) (h : Handle) : Option Node := v.pool.get? h

/-- The node under a handle; an unused handle has the fresh node. -/
def node (v : Volume) (h : Handle) : Node := (v.get? h).getD default

/-- The directory that holds a node. -/
def parent (v : Volume) (h : Handle) : Option Handle := (v.node h).parent

/-- The entries of a directory in the order they were added. -/
def children (v : Volume) (h : Handle) : List Handle := (v.node h).children

/-- The number of slots in use. -/
def used (v : Volume) : Nat := v.pool.used

def usage (v : Volume) : Usage := v.pool.usage

/-- A name as entries keep it. -/
def cutName (v : Volume) (name : Text) : Text := Text.within v.limits.maxNameLen.toNat name

/-- The first entry of a directory with that very name. -/
def child? (v : Volume) (dir : Handle) (name : Text) : Option Handle :=
  (v.children dir).find? fun h => (v.node h).name == name

/-! ## Editing -/

/-- A volume with one node changed. -/
def modify (v : Volume) (h : Handle) (f : Node → Node) : Volume :=
  { v with pool := v.pool.modify h f }

/-- The node of the root. -/
def rootNode : Node :=
  { body := .directory [], permissions := .all, flags := .system }

/-- A volume that holds nothing but its root. -/
def blank (limits : Limits) : Except FsError Volume :=
  match (Pool.empty limits.maxNodes.toNat).add rootNode with
  | .ok (h, pool) => .ok ⟨limits, pool, h⟩
  | .error e => .error e

/-- The flags of a new entry: a name that starts with a dot hides it. -/
def nameFlags (name : Text) : Flags := if name.head? = some '.' then .hidden else .none

/-- A node of the given kind for a directory to hold. -/
def newNode (dir : Handle) (name : Text) (kind : Kind) (permissions : Permissions) : Node :=
  { name, body := .empty kind, parent := some dir, permissions, flags := nameFlags name }

/-- Appends a new entry to a directory.  Room in the directory is checked before
a slot is taken; names and permissions are up to the caller. -/
def createChild (v : Volume) (dir : Handle) (name : Text) (kind : Kind)
    (permissions : Permissions) : Except FsError (Handle × Volume) :=
  match (v.node dir).body with
  | .file _ => .error .notADirectory
  | .directory children =>
    if v.limits.maxChildren.toNat ≤ children.length then .error .directoryFull
    else
      match v.pool.add (newNode dir (v.cutName name) kind permissions) with
      | .error e => .error e
      | .ok (h, pool) =>
        let link := fun n : Node => { n with body := n.body.mapChildren (· ++ [h]) }
        .ok (h, { v with pool := pool.modify dir link })

/-- Takes a node off the directory that holds it; the other entries keep their
order.  A node that no directory holds stays as it is. -/
def detach (v : Volume) (h : Handle) : Volume :=
  match v.parent h with
  | none => v
  | some dir =>
    let unlink := fun n : Node => { n with body := n.body.mapChildren (·.filter (· != h)) }
    (v.modify h fun n => { n with parent := none }).modify dir unlink

/-! ## What the edits do to the nodes -/

@[simp] theorem limits_modify (v : Volume) (h : Handle) (f : Node → Node) :
    (v.modify h f).limits = v.limits := rfl

@[simp] theorem cwd_modify (v : Volume) (h : Handle) (f : Node → Node) :
    (v.modify h f).cwd = v.cwd := rfl

@[simp] theorem used_modify (v : Volume) (h : Handle) (f : Node → Node) :
    (v.modify h f).used = v.used := Pool.used_modify v.pool h f

/-- A change of one slot leaves the others as they are. -/
theorem get?_modify (v : Volume) (h : Handle) (f : Node → Node) (i : Handle) :
    (v.modify h f).get? i = if h = i then (v.get? i).map f else v.get? i :=
  Pool.get?_modify v.pool h f i

/-- A slot is never given back. -/
@[simp] theorem used_detach (v : Volume) (h : Handle) : (v.detach h).used = v.used := by
  unfold detach
  split <;> simp

/-- A new entry takes the next handle and one slot. -/
theorem used_createChild {v w : Volume} {dir h : Handle} {name : Text} {kind : Kind}
    {permissions : Permissions} (e : v.createChild dir name kind permissions = .ok (h, w)) :
    h = v.used ∧ w.used = v.used + 1 ∧ w.limits = v.limits ∧ w.cwd = v.cwd := by
  unfold createChild at e
  split at e
  case h_1 => cases e
  case h_2 =>
    split at e
    case isTrue => cases e
    case isFalse =>
      split at e
      case h_1 => cases e
      case h_2 a q ha =>
        obtain ⟨_, hh, _, hu, _⟩ := Pool.add_eq_ok ha
        cases e
        exact ⟨hh, by simpa [used] using hu, rfl, rfl⟩

end Volume

end RamFs
