import RamFs.Text.Number

/-!
# RamFs.Error

Why an operation on a volume fails.  Each cause is a constructor and `message`
gives its words.  A failure is never final for the session: the caller reports
it and goes on.
-/

namespace RamFs

/-- What stood in the way of an operation: a missing permission bit, or the
system flag of its target. -/
inductive Denied
  | read
  | write
  | execute
  | system
deriving DecidableEq, Repr

/-- The words of a denial. -/
def Denied.message : Denied → Text
  | .read => "no read permission".toList
  | .write => "no write permission".toList
  | .execute => "no execute permission".toList
  | .system => "system entry is protected".toList

/-- The causes for which an operation on a volume fails. -/
inductive FsError
  /-- A component or the target of a path is missing. -/
  | notFound
  /-- A file stands where a directory is needed. -/
  | notADirectory
  /-- The target is of the wrong kind for the operation. -/
  | wrongType
  /-- The directory has an entry of that name. -/
  | alreadyExists
  /-- The directory has as many entries as one may have. -/
  | directoryFull
  /-- Every node slot of the volume has been handed out. -/
  | exhausted
  /-- A permission bit or the system flag forbids the operation. -/
  | permissionDenied (why : Denied)
  /-- The directory to remove has entries. -/
  | notEmpty
  /-- The numeric mode is none of 0 to 7. -/
  | invalidValue (mode : UInt32)
  /-- A new entry would have no name, or that of a special component. -/
  | invalidName
  /-- The description of the volume could not be written. -/
  | serialization
deriving DecidableEq, Repr

namespace FsError

/-- The words of an error. -/
def message : FsError → Text
  | .notFound => "no such file or directory".toList
  | .notADirectory => "not a directory".toList
  | .wrongType => "wrong node type for this operation".toList
  | .alreadyExists => "name already exists".toList
  | .directoryFull => "directory full".toList
  | .exhausted => "node limit reached".toList
  | .permissionDenied why => "permission denied (".toList ++ why.message ++ [')']
  | .notEmpty => "directory not empty".toList
  | .invalidValue mode =>
    "invalid permission value ".toList ++ Text.ofNat mode.toNat ++ " (expected 0-7)".toList
  | .invalidName => "invalid name".toList
  | .serialization => "metadata encoding failed".toList

def isNotFound : FsError → Bool
  | .notFound => true
  | _ => false

def isPermissionDenied : FsError → Bool
  | .permissionDenied _ => true
  | _ => false

/-- Whether an error is about room: slots, which are never handed out twice, or places
in a directory. -/
def isCapacity : FsError → Bool
  | .exhausted | .directoryFull => true
  | _ => false

end FsError

end RamFs
