import RamFs.Host.Options
import RamFs.Kernel

/-!
# RamFs.Host.Session

A session started from the command line: the limits come from the defaults, a
file and the options, in this order, and the log is shown on request.
-/

namespace RamFs

namespace Host

/-- Why the command line ends without a session. -/
inductive Failure
  /-- The arguments make no sense. -/
  | usage
  /-- The file with the limits cannot be read as a text. -/
  | unreadable (path : Text)
  /-- The file does not describe limits. -/
  | invalid (path : Text)
  /-- No volume can be made with these limits. -/
  | boot (e : FsError)
deriving DecidableEq, Repr

namespace Failure

/-- The words of a failure. -/
def message : Failure → Text
  | .usage => "unexpected arguments, try --help".toList
  | .unreadable path => "cannot read ".toList ++ path
  | .invalid path => "invalid config ".toList ++ path
  | .boot e => "cannot boot with this configuration: ".toList ++ e.message

/-- The line that reports a failure. -/
def report (f : Failure) : Text := "Error: ".toList ++ f.message

/-- The code a failure ends the program with. -/
def exitCode : Failure → UInt8
  | .usage => 2
  | .unreadable _ | .invalid _ | .boot _ => 1

end Failure

/-! ## Limits -/

/-- The limits that the content of a file describes. -/
def limitsOfFile (path : Text) (content : Option Bytes) : Except Failure Limits :=
  match content >>= Text.decode? with
  | none => .error (.unreadable path)
  | some text =>
    match Json.decode? Limits text with
    | none => .error (.invalid path)
    | some limits => .ok limits

/-- Limits with those replaced that the options give. -/
def override (o : Options) (limits : Limits) : Limits :=
  { limits with
    maxNodes := o.maxNodes.getD limits.maxNodes
    maxChildren := o.maxChildren.getD limits.maxChildren }

/-- The limits of a session, given what each file holds. -/
def limitsOf (o : Options) (readFile : Text → Option Bytes) : Except Failure Limits :=
  match o.config with
  | none => .ok (override o {})
  | some path => (limitsOfFile path (readFile path)).map (override o)

/-! ## The program -/

/-- What the program leaves behind: its output, the messages shown to the side,
and the failure it ended with, if any. -/
structure Report where
  output : Bytes
  messages : List Message
  failure : Option Failure
deriving DecidableEq, Repr

/-- The code the program ends with. -/
def Report.exitCode (r : Report) : UInt8 :=
  match r.failure with
  | none => 0
  | some f => f.exitCode

/-- The messages to show: all of them or none. -/
def shown (o : Options) (messages : List Message) : List Message :=
  if o.verbose then messages else []

/-- A session with given limits on an input that is no terminal. -/
def session (o : Options) (limits : Limits) (input : Bytes) : Report :=
  match Kernel.boot limits with
  | (messages, .error e) => ⟨[], shown o messages, some (.boot e)⟩
  | (messages, .ok v) =>
    let run := Kernel.run (.host false) v input
    ⟨Action.output run.actions, shown o (messages ++ Action.messages run.actions), none⟩

/-- The program on its arguments, what each file holds, and its input. -/
def program (arguments : List Text) (readFile : Text → Option Bytes) (input : Bytes) : Report :=
  match Options.parse arguments with
  | .error .help => ⟨Text.encode Options.help, [], none⟩
  | .error .usage => ⟨[], [], some .usage⟩
  | .ok o =>
    match limitsOf o readFile with
    | .error failure => ⟨[], [], some failure⟩
    | .ok limits => session o limits input

end Host

end RamFs
