import RamFs.Proofs.Plain.Tree
import RamFs.Volume.Operation

/-!
# RamFs.Proofs.Plain.State

The operations on a plain tree, written down directly.  A state has the tree,
the current directory as a list of names, and the number of slots that have been
handed out, which is all that is left of the pool.  Two dots drop the last name,
an entry is looked for by its name, and a change is made where the names lead.

This is what the operations of a volume mean; `Op.run` is measured against it.
-/

namespace RamFs

namespace Plain

/-- A file tree with a current directory. -/
structure State where
  limits : Limits
  tree : Tree
  cwd : List Text
  used : Nat
deriving DecidableEq

/-- What an operation that succeeds gives, with places for handles. -/
inductive Answer
  | done
  | place (names : List Text)
  | entries (es : List Entry)
  | path (p : Text)
  | stored (size : Nat)
  | content (bytes : Bytes)
  | stat (s : Stat)
  | script (content : Option Bytes)
  | usage (u : Usage)
deriving DecidableEq, Repr

/-- A check: it succeeds or stops with the error. -/
def require (b : Bool) (x : FsError) : Except FsError Unit := if b then .ok () else .error x

namespace State

/-! ## Walking -/

/-- The subtree at a place. -/
def subtree (s : State) (place : List Text) : Tree := (s.tree.find? place).getD default

/-- A name as entries keep it. -/
def cutName (s : State) (name : Text) : Text := Text.within s.limits.maxNameLen.toNat name

/-- The place a path starts from. -/
def startOf (s : State) (path : Text) : List Text := if Path.isAbsolute path then [] else s.cwd

/-- The directory that one component leads to, or none if it is missing. -/
def step (s : State) (dir : List Text) (component : Text) : Except FsError (Option (List Text)) :=
  if component = Path.here then .ok (some dir)
  else if component = Path.up then .ok (some dir.dropLast)
  else
    match (s.subtree dir).child? (s.cutName component) with
    | none => .ok none
    | some (.file ..) => .error .notADirectory
    | some (.directory ..) => .ok (some (dir ++ [s.cutName component]))

/-- The directory that components lead to. -/
def descend (s : State) (dir : List Text) : List Text → Except FsError (List Text)
  | [] => .ok dir
  | c :: cs =>
    match s.step dir c with
    | .error x => .error x
    | .ok none => .error .notFound
    | .ok (some next) => s.descend next cs

/-- The directory that a path names. -/
def lookup (s : State) (path : Text) : Except FsError (List Text) :=
  s.descend (s.startOf path) (Path.components path)

/-- The place that a last component names in a directory. -/
def leaf (s : State) (dir : List Text) (name : Text) : Except FsError (List Text) :=
  if name = [] ∨ name = Path.here then .ok dir
  else if name = Path.up then .ok dir.dropLast
  else
    match (s.subtree dir).child? (s.cutName name) with
    | none => .error .notFound
    | some _ => .ok (dir ++ [s.cutName name])

/-- The file or directory that a path names. -/
def locate (s : State) (path : Text) : Except FsError (List Text) := do
  let dir ← s.lookup (Path.splitParent path).1
  s.leaf dir (Path.splitParent path).2

/-! ## Adding entries -/

/-- A new entry at the end of a directory. -/
def add (s : State) (dir : List Text) (name : Text) (kind : Kind) (permissions : Permissions) :
    Except FsError (List Text × State) := do
  let entry := Tree.empty kind permissions (Volume.nameFlags name)
  require ((s.subtree dir).entries.length < s.limits.maxChildren.toNat) .directoryFull
  require (s.used < s.limits.maxNodes.toNat) .exhausted
  .ok (dir ++ [name], { s with tree := s.tree.change (.append name entry) dir, used := s.used + 1 })

def create (s : State) (path : Text) (kind : Kind) (permissions : Permissions) :
    Except FsError (List Text × State) := do
  let leaf := (Path.splitParent path).2
  if leaf = [] ∨ Path.isSpecial leaf then
    .error .invalidName
  else
    let dir ← s.lookup (Path.splitParent path).1
    require (s.subtree dir).permissions.canWrite (.permissionDenied .write)
    require ((s.subtree dir).child? (s.cutName leaf)).isNone .alreadyExists
    s.add dir (s.cutName leaf) kind permissions

/-- Adds a directory on the way down a path. -/
def addOnTheWay (s : State) (dir : List Text) (name : Text) :
    Except FsError (List Text × State) := do
  require (s.subtree dir).permissions.canWrite (.permissionDenied .write)
  (s.add dir (s.cutName name) .directory .all).mapError Volume.asExhausted

/-- The directory that components lead to, each missing one created on the way. -/
def descendMaking (s : State) (dir : List Text) : List Text → Except FsError (List Text) × State
  | [] => (.ok dir, s)
  | c :: cs =>
    match s.step dir c with
    | .error x => (.error x, s)
    | .ok (some next) => s.descendMaking next cs
    | .ok none =>
      match s.addOnTheWay dir c with
      | .error x => (.error x, s)
      | .ok (next, u) => u.descendMaking next cs

def makePath (s : State) (path : Text) : Except FsError (List Text) × State :=
  s.descendMaking (s.startOf path) (Path.components path)

/-! ## Removing entries -/

/-- Whether the tree at a place may be taken off the directory above it. -/
def removable (s : State) (place : List Text) (kind : Kind) : Except FsError Unit := do
  require ((s.subtree place).kind == kind) .wrongType
  require (!(s.subtree place).flags.isSystem) (.permissionDenied .system)
  require (!place.isEmpty) .notFound
  require (s.subtree place.dropLast).permissions.canWrite (.permissionDenied .write)

/-- The tree without what is at a place. -/
def detach (s : State) (place : List Text) : State :=
  { s with tree := s.tree.change (.remove (place.getLastD [])) place.dropLast }

def rm (s : State) (path : Text) : Except FsError State := do
  let place ← s.locate path
  s.removable place .file
  .ok (s.detach place)

def rmdir (s : State) (path : Text) : Except FsError State := do
  let place ← s.locate path
  s.removable place .directory
  require (s.subtree place).entries.isEmpty .notEmpty
  .ok { s.detach place with cwd := if s.cwd = place then place.dropLast else s.cwd }

/-! ## Changing nodes and moving about -/

def cd (s : State) (path : Text) : Except FsError State := do
  let dir ← s.lookup path
  require (s.subtree dir).permissions.canExecute (.permissionDenied .execute)
  .ok { s with cwd := dir }

def write (s : State) (path text : Text) : Except FsError (Nat × State) := do
  let place ← s.locate path
  require ((s.subtree place).kind == .file) .wrongType
  require (s.subtree place).permissions.canWrite (.permissionDenied .write)
  let stored := Text.encode (Text.storable s.limits.maxContentLen.toNat text)
  .ok (stored.length, { s with tree := s.tree.change (.store stored) place })

def chmod (s : State) (path : Text) (mode : UInt32) : Except FsError State := do
  let place ← s.locate path
  require (!(s.subtree place).flags.isSystem) (.permissionDenied .system)
  match Permissions.ofMode? mode with
  | none => .error (.invalidValue mode)
  | some permissions => .ok { s with tree := s.tree.change (.grant permissions) place }

/-! ## Looking -/

/-- What a listing reports about an entry. -/
def entryOf (e : Text × Tree) : Entry := ⟨e.1, e.2.kind, e.2.permissions, e.2.flags⟩

def ls (s : State) (path : Text) (all : Bool) : Except FsError (List Entry) := do
  let dir ← s.lookup path
  require (s.subtree dir).permissions.canRead (.permissionDenied .read)
  let shown := (s.subtree dir).entries.filter fun e => all || !e.2.flags.isHidden
  .ok (shown.map entryOf)

def cat (s : State) (path : Text) : Except FsError Bytes := do
  let place ← s.locate path
  require ((s.subtree place).kind == .file) .wrongType
  require (s.subtree place).permissions.canRead (.permissionDenied .read)
  .ok (s.subtree place).content

/-- The report on a tree; the top goes by the name of a slash. -/
def stat (s : State) (path : Text) : Except FsError Stat := do
  let place ← s.locate path
  let t := s.subtree place
  .ok ⟨place.getLastD [Path.separator], t.kind, t.permissions, t.flags, t.size⟩

def executable? (s : State) (path : Text) : Option Bytes :=
  match s.locate path with
  | .error _ => none
  | .ok place =>
    match s.subtree place with
    | .file permissions _ content => if permissions.canExecute then some content else none
    | .directory .. => none

def usage (s : State) : Usage := ⟨s.used, s.limits.maxNodes.toNat⟩

/-! ## All operations -/

/-- The outcome of an operation that changes nothing if it fails. -/
def settle {α : Type} (s : State) (answer : α → Answer) :
    Except FsError (α × State) → Except FsError Answer × State
  | .error x => (.error x, s)
  | .ok (a, u) => (.ok (answer a), u)

/-- Performs an operation. -/
def run (s : State) : Op → Except FsError Answer × State
  | .mkdir path => s.settle .place (s.create path .directory .all)
  | .makePath path | .resolve path true =>
    ((s.makePath path).1.map .place, (s.makePath path).2)
  | .touch path => s.settle .place (s.create path .file .readWrite)
  | .touchReadOnly path => s.settle .place (s.create path .file .read)
  | .touchWith path permissions => s.settle .place (s.create path .file permissions)
  | .rm path => s.settle (fun _ => .done) ((s.rm path).map ((), ·))
  | .rmdir path => s.settle (fun _ => .done) ((s.rmdir path).map ((), ·))
  | .ls path all => ((s.ls path all).map .entries, s)
  | .cd path => s.settle (fun _ => .done) ((s.cd path).map ((), ·))
  | .pwd => (.ok (.path (Path.render s.cwd)), s)
  | .write path text => s.settle .stored (s.write path text)
  | .cat path => ((s.cat path).map .content, s)
  | .chmod path mode => s.settle (fun _ => .done) ((s.chmod path mode).map ((), ·))
  | .stat path => ((s.stat path).map .stat, s)
  | .executable path => (.ok (.script (s.executable? path)), s)
  | .locate path => ((s.locate path).map .place, s)
  | .resolve path false => ((s.lookup path).map .place, s)
  | .usage => (.ok (.usage s.usage), s)

/-- The state after operations in order, whether they succeed or fail. -/
def runAll (s : State) (ops : List Op) : State := ops.foldl (fun u op => (u.run op).2) s

/-- What operations give one after another. -/
def replies (s : State) : List Op → List (Except FsError Answer)
  | [] => []
  | op :: ops => (s.run op).1 :: (s.run op).2.replies ops

end State

end Plain

end RamFs
