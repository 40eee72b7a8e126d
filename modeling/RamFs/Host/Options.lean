import RamFs.Limits
import RamFs.Text.Number

/-!
# RamFs.Host.Options

The arguments of the command line.  An option that takes a value takes it after
an equals sign or as the next argument, which must not look like an option; the
value of a short option may also follow its letter at once, and short options
without values may share one dash.  Each option may be given once, and there is
nothing else to give.  Arguments count from left to right, so a call for help
wins over mistakes after it only.
-/

namespace RamFs

namespace Host

/-- What the arguments ask for. -/
structure Options where
  config : Option Text := none
  maxNodes : Option UInt64 := none
  maxChildren : Option UInt64 := none
  verbose : Bool := false
deriving DecidableEq, Repr

/-- Why the arguments start no session. -/
inductive Refusal
  | help
  | usage
deriving DecidableEq, Repr

/-- The options that take a value. -/
inductive Valued
  | config
  | maxNodes
  | maxChildren
deriving DecidableEq, Repr

namespace Options

/-- A number of 64 bits. -/
def size? (value : Text) : Option UInt64 := (Text.unsigned? UInt64.size value).map UInt64.ofNat

/-- Gives an option its value, which it must not have yet. -/
def set (o : Options) (option : Valued) (value : Text) : Except Refusal Options :=
  match option, size? value with
  | .config, _ =>
    if o.config = none ∧ value ≠ [] then .ok { o with config := some value } else .error .usage
  | .maxNodes, some n =>
    if o.maxNodes = none then .ok { o with maxNodes := some n } else .error .usage
  | .maxChildren, some n =>
    if o.maxChildren = none then .ok { o with maxChildren := some n } else .error .usage
  | .maxNodes, none | .maxChildren, none => .error .usage

/-- Asks for the log, which must not have been asked for yet. -/
def setVerbose (o : Options) : Except Refusal Options :=
  if o.verbose then .error .usage else .ok { o with verbose := true }

/-! ## Single arguments -/

/-- A value without the equals sign it may start with. -/
def dropEquals : Text → Text
  | '=' :: t => t
  | t => t

/-- Whether an argument looks like an option. -/
def isDashed : Text → Bool
  | '-' :: _ :: _ => true
  | _ => false

/-- The options of one dash, and the one that still needs a value. -/
def readShort (o : Options) : Text → Except Refusal (Options × Option Valued)
  | [] => .ok (o, none)
  | 'v' :: letters => do (← o.setVerbose).readShort letters
  | 'h' :: _ => .error .help
  | 'c' :: [] => .ok (o, some .config)
  | 'c' :: value => do .ok (← o.set .config (dropEquals value), none)
  | _ => .error .usage

/-- The long names of the options that take a value. -/
def longNames : List (Text × Valued) :=
  [("config".toList, .config), ("max-nodes".toList, .maxNodes),
    ("max-children".toList, .maxChildren)]

/-- The option of two dashes, and the one that still needs a value. -/
def readLong (o : Options) (argument : Text) : Except Refusal (Options × Option Valued) :=
  let name := argument.takeWhile (· != '=')
  match longNames.lookup name, argument.dropWhile (· != '=') with
  | some option, [] => .ok (o, some option)
  | some option, _ :: value => do .ok (← o.set option value, none)
  | none, [] =>
    if name = "verbose".toList then do .ok (← o.setVerbose, none)
    else if name = "help".toList then .error .help
    else .error .usage
  | none, _ :: _ => .error .usage

/-! ## The whole line -/

/-- Reads arguments from left to right, with an option that may wait for its
value. -/
def readAll (o : Options) : Option Valued → List Text → Except Refusal Options
  | none, [] => .ok o
  | some _, [] => .error .usage
  | some option, value :: rest => do
    if isDashed value then .error .usage else (← o.set option value).readAll none rest
  | none, ['-', '-'] :: rest => if rest = [] then .ok o else .error .usage
  | none, ('-' :: '-' :: argument) :: rest => do
    let (o, waiting) ← o.readLong argument
    o.readAll waiting rest
  | none, ('-' :: letter :: letters) :: rest => do
    let (o, waiting) ← o.readShort (letter :: letters)
    o.readAll waiting rest
  | none, _ :: _ => .error .usage

/-- What the arguments of the command line ask for. -/
def parse (arguments : List Text) : Except Refusal Options := readAll {} none arguments

/-! ## Help -/

/-- The text that explains the options, their descriptions in one column. -/
def help : Text :=
  ("Run the tinyrv kernel shell on the host terminal\n" ++
    "\n" ++
    "Usage: tinyrv-host [OPTIONS]\n" ++
    "\n" ++
    "Options:\n" ++
    "  -c, --config <CONFIG>              " ++
      "JSON file with filesystem capacities (same shape as /etc/fsinfo)\n" ++
    "      --max-nodes <MAX_NODES>        " ++
      "Arena capacity, overriding the config file\n" ++
    "      --max-children <MAX_CHILDREN>  " ++
      "Children per directory, overriding the config file\n" ++
    "  -v, --verbose                      " ++
      "Print the kernel debug log to stderr\n" ++
    "  -h, --help                         " ++
      "Print help\n").toList

end Options

end Host

end RamFs
