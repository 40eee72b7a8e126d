import Mathlib.Algebra.Group.Nat.Defs
import RamFs.Proofs.Faults.Slices
import RamFs.Proofs.InPlace

/-!
# RamFs.Proofs.Faults.Programs

The operations with nothing taken for granted.  A handle is looked up in the pool
each time it is used, a new one is kept in 32 bits, directories are asserted to be
directories before they get an entry or the cursor, texts are sliced by octets, and
what is left of the pool is subtracted.  Wherever one of these cannot be done the
program ends with a `Fault`, which is no error: nothing comes after it.

* `Guarded` — programs over a volume that may stop with an error or end with a fault;
* `Op.guarded` — the program of each operation.
-/

namespace RamFs

/-- Programs that change a volume in place, and may stop with an error or end with a
fault. -/
abbrev Guarded (α : Type) : Type := ExceptT FsError (StateT Volume (Except Fault)) α

namespace Guarded

variable {α β : Type}

/-- What a program gives on a volume, and the volume it leaves behind, unless it ends
with a fault. -/
def exec (g : Guarded α) (v : Volume) : Except Fault (Except FsError α × Volume) := g v

/-! ## Single instructions -/

/-- A program without any check. -/
def sure (p : InPlace α) : Guarded α := fun v => .ok (p v)

/-- Something worked out apart from the volume. -/
def checked (e : Except Fault α) : Guarded α := fun v => e.map fun a => (.ok a, v)

/-- The node in a slot. -/
def slot (h : Handle) : Guarded Node := fun v =>
  match v.get? h with
  | none => .error .noSuchSlot
  | some n => .ok (.ok n, v)

/-- Changes the node in a slot. -/
def assign (h : Handle) (f : Node → Node) : Guarded Unit := do
  let _ ← slot h
  sure (InPlace.assign h f)

/-- Asks the node in a slot for something, which may be refused. -/
def require (h : Handle) (f : Node → Except FsError α) : Guarded α := do
  let n ← slot h
  sure (InPlace.ask fun _ => f n)

/-- Goes on only if there is a directory in a slot. -/
def assertDirectory (h : Handle) : Guarded Unit := do
  let n ← slot h
  checked (if n.isDirectory then .ok () else .error .notADirectory)

/-- Takes the next slot, with a fresh node in it.  Handles have 32 bits. -/
def allocate : Guarded Handle := do
  let h ← sure InPlace.allocate
  return h % 2 ^ 32

/-! ## Walking -/

/-- A name as entries keep it. -/
def cutName (name : Text) : Guarded Text := do
  let limits ← sure (InPlace.look (·.limits))
  checked (Text.cut limits.maxNameLen.toNat name)

/-- The first of some entries that goes by a name. -/
def firstNamed (name : Text) : List Handle → Guarded (Option Handle)
  | [] => return none
  | h :: hs => do
    let n ← slot h
    if n.name == name then return some h else firstNamed name hs

def findChild (dir : Handle) (name : Text) : Guarded (Option Handle) := do
  let n ← slot dir
  firstNamed name n.children

/-- The parent of a node, or the node itself at the top. -/
def above (h : Handle) : Guarded Handle := do
  let n ← slot h
  return n.parent.getD h

def step (dir : Handle) (component : Text) : Guarded (Option Handle) :=
  if component = Path.here then return some dir
  else if component = Path.up then some <$> above dir
  else do
    let name ← cutName component
    match ← findChild dir name with
    | none => return none
    | some h => require h fun n => if n.isFile then .error .notADirectory else .ok (some h)

def descend (dir : Handle) : List Text → Guarded Handle
  | [] => return dir
  | c :: cs => do
    match ← step dir c with
    | none => throw .notFound
    | some next => descend next cs

def lookup (path : Text) : Guarded Handle := do
  let start ← sure (InPlace.look (·.startOf path))
  descend start (Path.components path)

def leaf (dir : Handle) (name : Text) : Guarded Handle :=
  if name = [] ∨ name = Path.here then return dir
  else if name = Path.up then above dir
  else do
    let name ← cutName name
    match ← findChild dir name with
    | none => throw .notFound
    | some h => return h

def locate (path : Text) : Guarded Handle := do
  let (parent, name) ← checked (Path.part path)
  let dir ← lookup parent
  leaf dir name

/-- The names from a node up to the top, which has none. -/
def namesUp : Nat → Handle → Guarded (List Text)
  | 0, _ => checked (.error .endless)
  | fuel + 1, h => do
    let n ← slot h
    match n.parent with
    | none => return []
    | some dir => (n.name :: ·) <$> namesUp fuel dir

def pwd : Guarded Text := do
  let cwd ← sure (InPlace.look (·.cwd))
  let used ← sure (InPlace.look (·.used))
  let names ← namesUp used cwd
  return Path.render names.reverse

/-! ## Adding entries -/

def createChild (dir : Handle) (name : Text) (kind : Kind) (permissions : Permissions) :
    Guarded Handle := do
  assertDirectory dir
  let name ← cutName name
  let limits ← sure (InPlace.look (·.limits))
  require dir fun n =>
    if limits.maxChildren.toNat ≤ n.children.length then .error .directoryFull else .ok ()
  let h ← allocate
  assign h fun n =>
    { name, body := .empty kind, parent := some dir, permissions,
      flags := if name.head? = some '.' then n.flags.union .hidden else n.flags }
  assign dir fun n => { n with body := n.body.mapChildren (· ++ [h]) }
  return h

def create (path : Text) (kind : Kind) (permissions : Permissions) : Guarded Handle := do
  let (parent, leaf) ← checked (Path.part path)
  if leaf = [] ∨ Path.isSpecial leaf then
    throw .invalidName
  else
    let name ← cutName leaf
    let dir ← lookup parent
    require dir (·.requireWrite)
    match ← findChild dir name with
    | some _ => throw .alreadyExists
    | none => createChild dir name kind permissions

def addOnTheWay (dir : Handle) (name : Text) : Guarded Handle := do
  require dir (·.requireWrite)
  ExceptT.adapt Volume.asExhausted (createChild dir name .directory .all)

def descendMaking (dir : Handle) : List Text → Guarded Handle
  | [] => return dir
  | c :: cs => do
    match ← step dir c with
    | some next => descendMaking next cs
    | none => do
      let next ← addOnTheWay dir c
      descendMaking next cs

def makePath (path : Text) : Guarded Handle := do
  let start ← sure (InPlace.look (·.startOf path))
  descendMaking start (Path.components path)

/-! ## Removing entries and moving about -/

def removable (h : Handle) (kind : Kind) : Guarded Handle := do
  require h (·.requireKind kind)
  require h (·.requireUnprotected)
  let dir ← require h fun n => n.parent.elim (.error .notFound) .ok
  require dir (·.requireWrite)
  return dir

def detach (h : Handle) : Guarded Unit := do
  let n ← slot h
  match n.parent with
  | none => return ()
  | some dir =>
    assign h fun n => { n with parent := none }
    assign dir fun n => { n with body := n.body.mapChildren (·.filter (· != h)) }

def moveTo (dir : Handle) : Guarded Unit := do
  assertDirectory dir
  sure (InPlace.moveTo dir)

def rm (path : Text) : Guarded Unit := do
  let h ← locate path
  let _ ← removable h .file
  detach h

def rmdir (path : Text) : Guarded Unit := do
  let h ← locate path
  let dir ← removable h .directory
  require h fun n => if n.children = [] then .ok () else .error .notEmpty
  detach h
  let cwd ← sure (InPlace.look (·.cwd))
  if cwd = h then moveTo dir else return ()

def cd (path : Text) : Guarded Unit := do
  let dir ← lookup path
  require dir (·.requireExecute)
  moveTo dir

/-! ## Content and reports -/

def write (path text : Text) : Guarded Nat := do
  let h ← locate path
  require h (·.requireKind .file)
  require h (·.requireWrite)
  let limits ← sure (InPlace.look (·.limits))
  let kept ← checked (Text.keep limits.maxContentLen.toNat text)
  let stored := Text.encode kept
  assign h fun n => { n with body := .file stored }
  return stored.length

def cat (path : Text) : Guarded Bytes := do
  let h ← locate path
  require h (·.requireKind .file)
  require h (·.requireRead)
  require h fun n => .ok n.content

def chmod (path : Text) (mode : UInt32) : Guarded Unit := do
  let h ← locate path
  require h (·.requireUnprotected)
  match Permissions.ofMode? mode with
  | none => throw (.invalidValue mode)
  | some permissions => assign h fun n => { n with permissions }

/-- The nodes in some slots, one after another. -/
def slots : List Handle → Guarded (List Node)
  | [] => return []
  | h :: hs => do
    let n ← slot h
    (n :: ·) <$> slots hs

def ls (path : Text) (all : Bool) : Guarded (List Entry) := do
  let dir ← lookup path
  require dir (·.requireRead)
  let n ← slot dir
  let entries ← slots n.children
  return (entries.filter fun n => all || !n.flags.isHidden).map Entry.ofNode

def stat (path : Text) : Guarded Stat := do
  let h ← locate path
  let n ← slot h
  return Stat.ofNode (if h = Volume.root then [Path.separator] else n.name) n

/-- An error on the way to the file is no error of this operation. -/
def executable? (path : Text) : Guarded (Option Bytes) :=
  tryCatch
    (do
      let h ← locate path
      require h fun n =>
        .ok (if n.isFile && n.permissions.canExecute then some n.content else none))
    fun _ => return none

/-- The slots that are left, as a difference that must not be negative. -/
def remaining (u : Usage) : Guarded Nat :=
  checked (if u.used ≤ u.capacity then .ok (u.capacity - u.used) else .error .belowZero)

/-- The slots in use and all there are, once it is known what is left of them. -/
def usage : Guarded Usage := do
  let u ← sure (InPlace.look (·.usage))
  let _ ← remaining u
  return u

end Guarded

/-- The program of an operation, with every check. -/
def Op.guarded : Op → Guarded Answer
  | .mkdir path => .handle <$> Guarded.create path .directory .all
  | .makePath path | .resolve path true => .handle <$> Guarded.makePath path
  | .touch path => .handle <$> Guarded.create path .file .readWrite
  | .touchReadOnly path => .handle <$> Guarded.create path .file .read
  | .touchWith path permissions => .handle <$> Guarded.create path .file permissions
  | .rm path => (fun _ => .done) <$> Guarded.rm path
  | .rmdir path => (fun _ => .done) <$> Guarded.rmdir path
  | .ls path all => .entries <$> Guarded.ls path all
  | .cd path => (fun _ => .done) <$> Guarded.cd path
  | .pwd => .path <$> Guarded.pwd
  | .write path text => .stored <$> Guarded.write path text
  | .cat path => .content <$> Guarded.cat path
  | .chmod path mode => (fun _ => .done) <$> Guarded.chmod path mode
  | .stat path => .stat <$> Guarded.stat path
  | .executable path => .script <$> Guarded.executable? path
  | .locate path => .handle <$> Guarded.locate path
  | .resolve path false => .handle <$> Guarded.lookup path
  | .usage => .usage <$> Guarded.usage

end RamFs
