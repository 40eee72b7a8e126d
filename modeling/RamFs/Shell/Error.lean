import RamFs.Command.Parser
import RamFs.Error

/-!
# RamFs.Shell.Error

Why a line of a session fails.  None of these ends the session.
-/

namespace RamFs

/-- The causes for which a line fails. -/
inductive ShellError
  /-- The line is no command. -/
  | command (e : CommandError)
  /-- A script would run inside too many others. -/
  | tooDeep (limit : Nat)
  /-- A path names no file with the execute bit. -/
  | notExecutable (path : Text)
  /-- An operation on the volume failed. -/
  | volume (e : FsError)
deriving DecidableEq, Repr

namespace ShellError

/-- The words of an error. -/
def message : ShellError → Text
  | .command e => e.message
  | .tooDeep limit => "scripts nested deeper than ".toList ++ Text.ofNat limit
  | .notExecutable path => path ++ ": not an executable file".toList
  | .volume e => e.message

/-- The line that reports an error to the user.  An unknown command is reported
as such; every other error follows the first word of the line that failed. -/
def report (line : Text) : ShellError → Text
  | .command (.unknown word) => CommandError.message (.unknown word)
  | e => (Text.splitWord line).1 ++ ": ".toList ++ e.message

end ShellError

end RamFs
