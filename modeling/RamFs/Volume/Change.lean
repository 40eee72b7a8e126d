import RamFs.Volume.Walk

/-!
# RamFs.Volume.Change

The operations that change a volume.  Each applies its checks in a fixed order,
so the first one that fails decides the error.  All but `makePath` either
succeed or change nothing, and their type says so: an error comes without a
volume.  `makePath` creates directories one after another and keeps those it
created before it failed, so it always gives a volume.
-/

namespace RamFs

namespace Volume

/-! ## Adding entries -/

/-- Creates an empty node of the given kind at a path whose parent exists.  The
name is checked first, then the parent, its write bit, and that no entry has
that name once it is cut. -/
def create (v : Volume) (path : Text) (kind : Kind) (permissions : Permissions) :
    Except FsError (Handle × Volume) := do
  let leaf := (Path.splitParent path).2
  if leaf = [] ∨ Path.isSpecial leaf then
    .error .invalidName
  else
    let dir ← v.lookup (Path.splitParent path).1
    (v.node dir).requireWrite
    if (v.child? dir (v.cutName leaf)).isSome then
      .error .alreadyExists
    else
      v.createChild dir (v.cutName leaf) kind permissions

/-- Creates a directory with all permissions. -/
def mkdir (v : Volume) (path : Text) : Except FsError (Handle × Volume) :=
  v.create path .directory .all

/-- Creates an empty file. -/
def touchWith (v : Volume) (path : Text) (permissions : Permissions) :
    Except FsError (Handle × Volume) :=
  v.create path .file permissions

/-- Creates an empty file to read and write. -/
def touch (v : Volume) (path : Text) : Except FsError (Handle × Volume) :=
  v.touchWith path .readWrite

/-- Creates an empty file to read only. -/
def touchReadOnly (v : Volume) (path : Text) : Except FsError (Handle × Volume) :=
  v.touchWith path .read

/-- On the way down a path, a full directory is reported like a full volume. -/
def asExhausted : FsError → FsError
  | .directoryFull => .exhausted
  | e => e

/-- Adds a directory on the way down a path. -/
def addOnTheWay (v : Volume) (dir : Handle) (name : Text) : Except FsError (Handle × Volume) := do
  (v.node dir).requireWrite
  (v.createChild dir name .directory .all).mapError asExhausted

/-- The directory that components lead to, each missing one created on the way. -/
def descendMaking (v : Volume) (dir : Handle) : List Text → Except FsError Handle × Volume
  | [] => (.ok dir, v)
  | c :: cs =>
    match v.step dir c with
    | .error e => (.error e, v)
    | .ok (some next) => v.descendMaking next cs
    | .ok none =>
      match v.addOnTheWay dir c with
      | .error e => (.error e, v)
      | .ok (next, w) => w.descendMaking next cs

/-- The directory that a path names, every missing directory created on the way.
What was created before a failure stays. -/
def makePath (v : Volume) (path : Text) : Except FsError Handle × Volume :=
  v.descendMaking (v.startOf path) (Path.components path)

/-! ## Removing entries -/

/-- The directory that a node may be taken off: the node is of the given kind
and not protected, and the directory may be written. -/
def removable (v : Volume) (h : Handle) (kind : Kind) : Except FsError Handle := do
  (v.node h).requireKind kind
  (v.node h).requireUnprotected
  match v.parent h with
  | none => .error .notFound
  | some dir =>
    (v.node dir).requireWrite
    .ok dir

/-- Removes a file. -/
def rm (v : Volume) (path : Text) : Except FsError Volume := do
  let h ← v.locate path
  let _ ← v.removable h .file
  .ok (v.detach h)

/-- Removes an empty directory.  If it was the current one, its parent becomes
the current one. -/
def rmdir (v : Volume) (path : Text) : Except FsError Volume := do
  let h ← v.locate path
  let dir ← v.removable h .directory
  if v.children h = [] then
    .ok { v.detach h with cwd := if v.cwd = h then dir else v.cwd }
  else
    .error .notEmpty

/-! ## Changing nodes and moving about -/

/-- Makes a directory the current one. -/
def cd (v : Volume) (path : Text) : Except FsError Volume := do
  let dir ← v.lookup path
  (v.node dir).requireExecute
  .ok { v with cwd := dir }

/-- Replaces the content of a file and gives the number of octets it keeps. -/
def write (v : Volume) (path : Text) (text : Text) : Except FsError (Nat × Volume) := do
  let h ← v.locate path
  (v.node h).requireKind .file
  (v.node h).requireWrite
  let stored := Text.encode (Text.storable v.limits.maxContentLen.toNat text)
  .ok (stored.length, v.modify h fun n => { n with body := .file stored })

/-- Replaces the permissions of a node by those of a numeric mode. -/
def chmod (v : Volume) (path : Text) (mode : UInt32) : Except FsError Volume := do
  let h ← v.locate path
  (v.node h).requireUnprotected
  match Permissions.ofMode? mode with
  | none => .error (.invalidValue mode)
  | some permissions => .ok (v.modify h fun n => { n with permissions })

end Volume

end RamFs
