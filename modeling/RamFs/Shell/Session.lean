import RamFs.Console.Action
import RamFs.Shell.Error
import RamFs.Volume.Operation

/-!
# RamFs.Shell.Session

Carrying out lines on a volume.  Each command comes down to a `Plan`.  For most
it is one operation of the volume: its answer is printed, and if it may have
changed the volume the log says how it went.  A script carries out the parts of
an executable file like typed lines.  A script may run scripts, itself included,
but only `maxScriptDepth` of them are ever open at once, and `execute` is defined
by recursion on how many more may be opened.
-/

namespace RamFs

namespace Shell

/-! ## Operations and their records -/

/-- The name and the path under which the log records an operation, if it does. -/
def record? : Op → Option (Text × Text)
  | .mkdir path => some ("mkdir".toList, path)
  | .makePath path => some ("mkdir -p".toList, path)
  | .touch path => some ("touch".toList, path)
  | .touchReadOnly path => some ("touchro".toList, path)
  | .rm path => some ("rm".toList, path)
  | .rmdir path => some ("rmdir".toList, path)
  | .write path _ => some ("write".toList, path)
  | .chmod path _ => some ("chmod".toList, path)
  | _ => none

/-- The cause of a failure, if there was one. -/
def failure? {α : Type} : Except FsError α → Option FsError
  | .error e => some e
  | .ok _ => none

/-- The lines that show an answer. -/
def answerLines : Answer → List Text
  | .done | .handle _ | .script _ => []
  | .entries es => es.map Entry.line
  | .path p => [p]
  | .stored size => ["File written (".toList ++ Text.ofNat size ++ " bytes).".toList]
  | .content bytes => [Text.decode bytes]
  | .stat s => [s.text]
  | .usage u =>
    ["Nodes: ".toList ++ Text.ofNat u.used ++ ['/'] ++ Text.ofNat u.capacity ++ " used, ".toList ++
      Text.ofNat u.remaining ++ " free".toList]

/-! ## Help -/

/-- A text with blanks after it up to a number of characters. -/
def padTo (length : Nat) (t : Text) : Text := t ++ List.replicate (length - t.length) ' '

/-- One row of the table of commands. -/
def helpRow (v : Verb) : Text := "  ".toList ++ padTo 20 v.usage ++ " - ".toList ++ v.about

/-- The lines that `help` prints. -/
def helpLines : List Text :=
  "Available commands:".toList :: Verb.all.map helpRow ++
    [[],
      "Permission values: 4=read, 2=write, 1=execute".toList,
      "  Examples: 7=rwx, 6=rw-, 5=r-x, 4=r--, 0=---".toList,
      "System entries (S flag) cannot be deleted or modified.".toList]

/-! ## Plans -/

/-- What a command comes down to. -/
inductive Plan
  | print (lines : List Text)
  | perform (op : Op)
  | script (path : Text)
  | shutdown
deriving DecidableEq, Repr

/-- The plan of a command. -/
def plan : Command → Plan
  | .help => .print helpLines
  | .echo text => .print [text]
  | .mkdir path false => .perform (.mkdir path)
  | .mkdir path true => .perform (.makePath path)
  | .touch path => .perform (.touch path)
  | .touchReadOnly path => .perform (.touchReadOnly path)
  | .rm path => .perform (.rm path)
  | .rmdir path => .perform (.rmdir path)
  | .ls path all => .perform (.ls path all)
  | .cd path => .perform (.cd path)
  | .pwd => .perform .pwd
  | .write path text => .perform (.write path text)
  | .cat path => .perform (.cat path)
  | .chmod path mode => .perform (.chmod path mode)
  | .stat path => .perform (.stat path)
  | .run path => .script path
  | .mem => .perform .usage
  | .shutdown => .shutdown

/-! ## Turns -/

/-- What to do after a line. -/
inductive Flow
  | next
  | shutdown
deriving DecidableEq, Repr

/-- What carrying out a line leads to. -/
structure Turn where
  volume : Volume
  actions : List Action
  flow : Flow
deriving DecidableEq, Repr

namespace Turn

/-- A turn that changes nothing and goes on. -/
def quiet (v : Volume) (actions : List Action) : Turn := ⟨v, actions, .next⟩

/-- A turn that reports an error. -/
def failed (v : Volume) (line : Text) (e : ShellError) : Turn :=
  quiet v [.printLine (e.report line)]

end Turn

/-- Performs an operation for a line. -/
def perform (v : Volume) (line : Text) (op : Op) : Turn :=
  let outcome := op.run v
  let recorded := match record? op with
    | none => []
    | some (name, path) => [Action.log (.performed name path (failure? outcome.1))]
  match outcome.1 with
  | .error e => ⟨outcome.2, recorded ++ [.printLine ((ShellError.volume e).report line)], .next⟩
  | .ok answer => ⟨outcome.2, recorded ++ (answerLines answer).map .printLine, .next⟩

/-! ## Scripts -/

/-- The most scripts that may be open at once. -/
def maxScriptDepth : Nat := 4

/-- The parts of a script: its text between line ends and semicolons, trimmed. -/
def scriptParts (content : Bytes) : List Text :=
  ((Text.decode content).splitOnP fun c => c == '\n' || c == ';').map Text.trim

/-- Carries out lines one after another and stops after a shutdown. -/
def sequence (run : Volume → Text → Turn) (v : Volume) : List Text → Turn
  | [] => .quiet v []
  | line :: lines =>
    let turn := run v line
    match turn.flow with
    | .shutdown => turn
    | .next =>
      let later := sequence run turn.volume lines
      { later with actions := turn.actions ++ later.actions }

/-- The message that closes a script. -/
def closing (path : Text) : Flow → Message
  | .next => .scriptDone path
  | .shutdown => .scriptStopped path

/-- Carries out a line while `levels` more scripts may be opened. -/
def execute (levels : Nat) (v : Volume) (line : Text) : Turn :=
  match Command.parse line with
  | .error e => .failed v line (.command e)
  | .ok none => .quiet v []
  | .ok (some command) =>
    match plan command with
    | .print lines => .quiet v (lines.map .printLine)
    | .perform op => perform v line op
    | .shutdown => ⟨v, [.log .shutdownRequested], .shutdown⟩
    | .script path =>
      match levels with
      | 0 =>
        let turn := Turn.failed v line (.tooDeep maxScriptDepth)
        { turn with actions := .log (.scriptRefused path maxScriptDepth) :: turn.actions }
      | levels + 1 =>
        match v.executable? path with
        | none => .failed v line (.notExecutable path)
        | some content =>
          let turn := sequence (execute levels) v (scriptParts content)
          let opening := Action.log (.scriptStarted path (maxScriptDepth - levels))
          { turn with actions := opening :: turn.actions ++ [.log (closing path turn.flow)] }

/-- Carries out a typed line. -/
def executeLine (v : Volume) (line : Text) : Turn := execute maxScriptDepth v line

end Shell

end RamFs
