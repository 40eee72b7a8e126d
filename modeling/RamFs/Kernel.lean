import RamFs.Console.LineEditor
import RamFs.Console.Platform
import RamFs.Shell.Session

/-!
# RamFs.Kernel

The main loop.  `boot` makes the volume; `run` greets, then prompts for a line,
reads and carries it out, and does so again until a shutdown or the end of the
input, and last asks the platform to power off.  Input after a shutdown is left
unread.
-/

namespace RamFs

namespace Kernel

/-- What is printed when a session starts. -/
def banner : Text := "tinyrv kernel: ready!\nType 'help' for a list of commands.\n".toList

/-- What is printed before each line. -/
def prompt : Text := "> ".toList

/-! ## Booting -/

/-- Makes the volume, with what the log says about it. -/
def boot (limits : Limits) : List Message × Except FsError Volume :=
  match Volume.format limits with
  | .error e => ([.booting limits, .bootFailed e], .error e)
  | .ok v => ([.booting limits, .ready v.usage], .ok v)

/-! ## Exchanges -/

/-- One line read and carried out: the volume after it, what was done, the input
that is left, and whether the session ends. -/
structure Exchange where
  volume : Volume
  actions : List Action
  rest : Bytes
  ends : Bool
deriving DecidableEq, Repr

/-- What follows from a line that was read. -/
def respond (v : Volume) (reading : LineEditor.Reading) : Exchange :=
  match reading.line with
  | none => ⟨v, [.write reading.echo, .log .inputClosed], reading.rest, true⟩
  | some line =>
    let turn := Shell.executeLine v (Text.decode line)
    ⟨turn.volume, .write reading.echo :: turn.actions, reading.rest, turn.flow == .shutdown⟩

/-- Reads the next line of the input and carries it out. -/
def exchange (echoes : Bool) (v : Volume) (input : Bytes) : Exchange :=
  respond v (LineEditor.read (LineEditor.limitOf LineEditor.defaultCapacity) echoes input)

/-- An exchange that does not end the session uses up input. -/
theorem length_rest_lt_of_goes_on {echoes : Bool} {v w : Volume} {input rest : Bytes}
    {actions : List Action} (h : exchange echoes v input = ⟨w, actions, rest, false⟩) :
    rest.length < input.length := by
  unfold exchange respond at h
  split at h
  case h_1 => cases h
  case h_2 line hl =>
    have hrest : (LineEditor.read _ echoes input).rest = rest := congrArg Exchange.rest h
    exact hrest ▸ LineEditor.length_rest_lt hl

/-! ## Sessions -/

/-- What a session leads to. -/
structure Run where
  volume : Volume
  actions : List Action
  rest : Bytes
deriving DecidableEq, Repr

/-- Prompts and exchanges until one ends the session. -/
def converse (echoes : Bool) (v : Volume) (input : Bytes) : Run :=
  match _h : exchange echoes v input with
  | ⟨w, actions, rest, true⟩ => ⟨w, .print prompt :: actions, rest⟩
  | ⟨w, actions, rest, false⟩ =>
    let later := converse echoes w rest
    { later with actions := .print prompt :: actions ++ later.actions }
termination_by input.length
decreasing_by exact length_rest_lt_of_goes_on _h

/-- A whole session on the input that waits. -/
def run (platform : Platform) (v : Volume) (input : Bytes) : Run :=
  let talk := converse (!platform.echoesInput) v input
  { talk with
    actions := .print banner :: talk.actions ++ .log .shuttingDown :: platform.powerActions }

end Kernel

end RamFs
