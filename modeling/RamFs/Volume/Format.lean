import RamFs.Json.Records
import RamFs.Volume.Basic

/-!
# RamFs.Volume.Format

The volume as it is delivered: the root, four protected directories under it,
and in `/etc` a protected file that describes the limits of the volume.
-/

namespace RamFs

namespace Volume

/-- The directory that holds the description of the volume. -/
def infoDir : Text := "etc".toList

/-- The name of the file with the description of the volume. -/
def infoName : Text := "fsinfo".toList

/-- The path of the file with the description of the volume. -/
def infoPath : Text := Path.render [infoDir, infoName]

/-- The protected directories under the root, in order. -/
def systemDirs : List Text := ["bin".toList, infoDir, "sys".toList, ".boot".toList]

/-- The number of slots that a fresh volume uses: the root, its directories and
the description. -/
def systemNodes : Nat := 1 + systemDirs.length + 1

/-- Appends a protected entry to a directory. -/
def createSystem (v : Volume) (dir : Handle) (name : Text) (kind : Kind)
    (permissions : Permissions) : Except FsError (Handle × Volume) := do
  let (h, w) ← v.createChild dir name kind permissions
  .ok (h, w.modify h fun n => { n with flags := n.flags.union .system })

/-- Appends protected directories to the root and gives their handles. -/
def createSystemDirs (v : Volume) : List Text → Except FsError (List Handle × Volume)
  | [] => .ok ([], v)
  | name :: names => do
    let (h, v) ← v.createSystem root name .directory .readExecute
    let (hs, v) ← v.createSystemDirs names
    .ok (h :: hs, v)

/-- What the description of a volume keeps of the text of its limits. -/
def info (limits : Limits) : Bytes :=
  Text.encode (Text.within limits.maxContentLen.toNat limits.describe)

/-- A fresh volume.  It fails if the limits leave no room for the system
entries. -/
def format (limits : Limits) : Except FsError Volume := do
  let v ← blank limits
  let (hs, v) ← v.createSystemDirs systemDirs
  let etc := ((systemDirs.zip hs).lookup infoDir).getD root
  let (h, v) ← v.createSystem etc infoName .file .read
  .ok (v.modify h fun n => { n with body := .file (info limits) })

end Volume

end RamFs
