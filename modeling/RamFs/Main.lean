import RamFs.Host.Session

/-!
# RamFs.Main

The program on a terminal or a pipe.  It carries out each line as soon as it is
typed; what to do is decided by `RamFs.Kernel` and `RamFs.Host`.
-/

namespace RamFs

namespace Main

/-- Writes octets at once. -/
def put (stream : IO.FS.Stream) (bytes : Bytes) : IO Unit := do
  stream.write (ByteArray.mk bytes.toArray)
  stream.flush

/-- Shows a line to the side. -/
def note (t : Text) : IO Unit := do put (← IO.getStderr) (Text.encode (t ++ ['\n']))

/-- Carries out actions; the log is shown on request. -/
def perform (verbose : Bool) : List Action → IO Unit
  | [] => pure ()
  | .write bytes :: actions => do
    put (← IO.getStdout) bytes
    perform verbose actions
  | .log message :: actions => do
    if verbose then note message.text
    perform verbose actions

/-- The input up to the end of a line, after octets already read, last first. -/
partial def readLine (held : Bytes) : IO Bytes := do
  let chunk ← (← IO.getStdin).read 1
  match chunk.toList with
  | [] => pure held.reverse
  | b :: _ => if LineEditor.endsLine b then pure (b :: held).reverse else readLine (b :: held)

/-- Prompts and exchanges until one ends the session. -/
partial def converse (verbose echoes : Bool) (v : Volume) : IO Unit := do
  perform verbose [.print Kernel.prompt]
  let next := Kernel.exchange echoes v (← readLine [])
  perform verbose next.actions
  if next.ends then pure () else converse verbose echoes next.volume

/-- The content of a file, if it can be read. -/
def readFile? (path : Text) : IO (Option Bytes) := do
  try
    let content ← IO.FS.readBinFile (String.ofList path)
    pure (some content.toList)
  catch _ => pure none

/-- Reports a failure and gives the code to end with. -/
def fail (f : Host.Failure) : IO UInt32 := do
  note f.report
  pure f.exitCode.toUInt32

/-- A whole session with given limits. -/
def session (o : Host.Options) (limits : Limits) : IO UInt32 := do
  let (messages, made) := Kernel.boot limits
  perform o.verbose (messages.map .log)
  match made with
  | .error e => fail (.boot e)
  | .ok v =>
    let platform := Platform.host (← (← IO.getStdin).isTty)
    perform o.verbose [.print Kernel.banner]
    converse o.verbose (!platform.echoesInput) v
    perform o.verbose (.log .shuttingDown :: platform.powerActions)
    pure 0

end Main

end RamFs

/-- Starts the program. -/
def main (arguments : List String) : IO UInt32 := do
  match RamFs.Host.Options.parse (arguments.map String.toList) with
  | .error .help =>
    RamFs.Main.put (← IO.getStdout) (RamFs.Text.encode RamFs.Host.Options.help)
    pure 0
  | .error .usage => RamFs.Main.fail .usage
  | .ok o =>
    let content ← match o.config with
      | none => pure none
      | some path => RamFs.Main.readFile? path
    match RamFs.Host.limitsOf o fun _ => content with
    | .error f => RamFs.Main.fail f
    | .ok limits => RamFs.Main.session o limits
