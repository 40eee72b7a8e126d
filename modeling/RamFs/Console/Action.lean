import RamFs.Limits
import RamFs.Pool
import RamFs.Text.Utf8

/-!
# RamFs.Console.Action

What a session does to the outside, in order: it writes octets to the console
and adds messages to the log of its platform.  Messages keep their parts apart,
and `Message.text` gives their words.
-/

namespace RamFs

/-! ## Messages -/

/-- Why a platform does not power off. -/
inductive PowerError
  | notSupported
  | ioError
deriving DecidableEq, Repr

/-- The words of a power error. -/
def PowerError.message : PowerError → Text
  | .notSupported => "operation not supported".toList
  | .ioError => "i/o error".toList

/-- The messages of the log. -/
inductive Message
  /-- A volume is about to be made. -/
  | booting (limits : Limits)
  /-- No volume could be made. -/
  | bootFailed (e : FsError)
  /-- The volume is ready. -/
  | ready (usage : Usage)
  /-- An operation that may change the volume was performed on a path. -/
  | performed (operation path : Text) (failure : Option FsError)
  /-- A script was not started because too many are open. -/
  | scriptRefused (path : Text) (depth : Nat)
  /-- A script was started and is the one at that depth. -/
  | scriptStarted (path : Text) (depth : Nat)
  /-- A script was carried out to its end. -/
  | scriptDone (path : Text)
  /-- A script was left because of a shutdown. -/
  | scriptStopped (path : Text)
  /-- A shutdown was asked for. -/
  | shutdownRequested
  /-- The console gives no more input. -/
  | inputClosed
  /-- The platform is about to be asked to power off. -/
  | shuttingDown
  /-- The platform does not power off. -/
  | powerFailed (e : PowerError)
  /-- A remark of the platform itself. -/
  | remark (text : Text)
deriving DecidableEq, Repr

/-- The words of a message. -/
def Message.text : Message → Text
  | .booting limits =>
    "[kernel] booting: ".toList ++ Text.ofNat limits.maxNodes.toNat ++ " nodes, ".toList ++
      Text.ofNat limits.maxChildren.toNat ++ " children per directory".toList
  | .bootFailed e => "[kernel] filesystem bootstrap failed: ".toList ++ e.message
  | .ready usage =>
    "[kernel] filesystem ready (".toList ++ Text.ofNat usage.used ++ ['/'] ++
      Text.ofNat usage.capacity ++ " nodes)".toList
  | .performed operation path failure =>
    "[fs] ".toList ++ operation ++ [' '] ++ path ++ ": ".toList ++
      match failure with
      | none => "ok".toList
      | some e => e.message
  | .scriptRefused path depth =>
    "[script] ".toList ++ path ++ ": refused at depth ".toList ++ Text.ofNat depth
  | .scriptStarted path depth =>
    "[script] ".toList ++ path ++ ": start (depth ".toList ++ Text.ofNat depth ++ [')']
  | .scriptDone path => "[script] ".toList ++ path ++ ": done".toList
  | .scriptStopped path => "[script] ".toList ++ path ++ ": stopped by shutdown".toList
  | .shutdownRequested => "[shell] shutdown requested".toList
  | .inputClosed => "[kernel] console input closed".toList
  | .shuttingDown => "[kernel] shutting down".toList
  | .powerFailed e => "[kernel] shutdown failed: ".toList ++ e.message
  | .remark text => text

/-! ## Actions -/

/-- One thing a session does to the outside. -/
inductive Action
  | write (bytes : Bytes)
  | log (message : Message)
deriving DecidableEq, Repr

namespace Action

/-- Writes a text. -/
def print (t : Text) : Action := .write (Text.encode t)

/-- Writes a text and ends the line. -/
def printLine (t : Text) : Action := print (t ++ ['\n'])

/-- The octets that actions write, in order. -/
def output (actions : List Action) : Bytes :=
  actions.flatMap fun
    | .write bytes => bytes
    | .log _ => []

/-- The messages that actions log, in order. -/
def messages (actions : List Action) : List Message :=
  actions.filterMap fun
    | .write _ => none
    | .log message => some message

/-- What is shown by actions one after another. -/
@[simp] theorem output_append (as bs : List Action) :
    output (as ++ bs) = output as ++ output bs := by
  simp [output]

/-- What is logged by actions one after another. -/
@[simp] theorem messages_append (as bs : List Action) :
    messages (as ++ bs) = messages as ++ messages bs := by
  simp [messages]

@[simp] theorem output_nil : output [] = [] := rfl

/-- Logging shows nothing. -/
@[simp] theorem output_log (m : Message) (as : List Action) : output (.log m :: as) = output as :=
  rfl

@[simp] theorem output_write (bytes : Bytes) (as : List Action) :
    output (.write bytes :: as) = bytes ++ output as := rfl

@[simp] theorem output_print (t : Text) (as : List Action) :
    output (.print t :: as) = Text.encode t ++ output as := rfl

@[simp] theorem messages_nil : messages [] = [] := rfl

/-- Showing logs nothing. -/
@[simp] theorem messages_write (bytes : Bytes) (as : List Action) :
    messages (.write bytes :: as) = messages as := rfl

@[simp] theorem messages_print (t : Text) (as : List Action) :
    messages (.print t :: as) = messages as := rfl

@[simp] theorem messages_log (m : Message) (as : List Action) :
    messages (.log m :: as) = m :: messages as := rfl

@[simp] theorem messages_printLine (t : Text) (as : List Action) :
    messages (.printLine t :: as) = messages as := rfl

/-- Lines that are printed log nothing. -/
@[simp] theorem messages_map_printLine (ts : List Text) : messages (ts.map .printLine) = [] := by
  induction ts with
  | nil => rfl
  | cons t ts ih => rw [List.map_cons, messages_printLine, ih]

end Action

end RamFs
