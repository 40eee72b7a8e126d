import RamFs.Command.Verb
import RamFs.Text.Blank
import RamFs.Text.Number

/-!
# RamFs.Command.Parser

A line as a command.  Paths are single words, so they hold no blanks; the text
of `echo` and `write` is the rest of the line as it was typed.  Words after the
arguments a command needs are ignored.
-/

namespace RamFs

/-- The commands with their arguments. -/
inductive Command
  | help
  | echo (text : Text)
  | mkdir (path : Text) (parents : Bool)
  | touch (path : Text)
  | touchReadOnly (path : Text)
  | rm (path : Text)
  | rmdir (path : Text)
  | ls (path : Text) (all : Bool)
  | cd (path : Text)
  | pwd
  | write (path : Text) (text : Text)
  | cat (path : Text)
  | chmod (path : Text) (mode : UInt32)
  | stat (path : Text)
  | run (path : Text)
  | mem
  | shutdown
deriving DecidableEq, Repr

/-- Why a line is no command. -/
inductive CommandError
  /-- The first word names no command. -/
  | unknown (word : Text)
  /-- An argument is missing; the usage line says which. -/
  | missing (usage : Text)
  /-- A word that should be a number is none. -/
  | badNumber (word : Text)
deriving DecidableEq, Repr

/-- The words of an error. -/
def CommandError.message : CommandError → Text
  | .unknown _ => "Unknown command. Type 'help' for a list.".toList
  | .missing usage => "usage: ".toList ++ usage
  | .badNumber word => "not a number: ".toList ++ word

namespace Command

/-! ## Arguments -/

/-- The flag that makes `mkdir` create parents. -/
def parentsFlag : Text := ['-', 'p']

/-- The flag that makes `ls` show hidden entries. -/
def allFlag : Text := ['-', 'a']

/-- A word that must be there. -/
def required (usage word : Text) : Except CommandError Text :=
  if word = [] then .error (.missing usage) else .ok word

/-- A word that must be a number of 32 bits. -/
def number (word : Text) : Except CommandError UInt32 :=
  match Text.unsigned? UInt32.size word with
  | none => .error (.badNumber word)
  | some n => .ok (UInt32.ofNat n)

/-- The command of a verb and the rest of its line. -/
def ofVerb (verb : Verb) (rest : Text) : Except CommandError Command :=
  let first := (Text.splitWord rest).1
  let after := (Text.splitWord rest).2
  let second := (Text.splitWord after).1
  match verb with
  | .help => .ok .help
  | .echo => .ok (.echo rest)
  | .touch => (required verb.usage first).map .touch
  | .touchReadOnly => (required verb.usage first).map .touchReadOnly
  | .cat => (required verb.usage first).map .cat
  | .write => (required verb.usage first).map (.write · after)
  | .rm => (required verb.usage first).map .rm
  | .mkdir =>
    if first = parentsFlag then (required "mkdir -p <path>".toList second).map (.mkdir · true)
    else (required "mkdir <path>".toList first).map (.mkdir · false)
  | .rmdir => (required verb.usage first).map .rmdir
  | .ls =>
    let words := Text.words rest
    .ok (.ls ((words.find? (· != allFlag)).getD []) (words.contains allFlag))
  | .cd => .ok (.cd (if first = [] then ['/'] else first))
  | .pwd => .ok .pwd
  | .chmod => do
    let path ← required verb.usage first
    let word ← required verb.usage second
    let mode ← number word
    .ok (.chmod path mode)
  | .stat => (required verb.usage first).map .stat
  | .run => (required verb.usage first).map .run
  | .mem => .ok .mem
  | .shutdown => .ok .shutdown

/-! ## Lines -/

/-- The command of a line; a blank line has none. -/
def parse (line : Text) : Except CommandError (Option Command) :=
  let word := (Text.splitWord line).1
  if word = [] then .ok none
  else
    match Verb.ofWord? word with
    | none => .error (.unknown word)
    | some verb => (ofVerb verb (Text.splitWord line).2).map some

end Command

end RamFs
