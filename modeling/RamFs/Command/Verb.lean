import RamFs.Text.Utf8

/-!
# RamFs.Command.Verb

The words that commands start with, and the table that explains them.
-/

namespace RamFs

/-- The commands by their first word, in the order of the table. -/
inductive Verb
  | help
  | echo
  | touch
  | touchReadOnly
  | cat
  | write
  | rm
  | mkdir
  | rmdir
  | ls
  | cd
  | pwd
  | chmod
  | stat
  | run
  | mem
  | shutdown
deriving DecidableEq, Repr

namespace Verb

/-- Every command, in the order of the table. -/
def all : List Verb :=
  [.help, .echo, .touch, .touchReadOnly, .cat, .write, .rm, .mkdir, .rmdir, .ls, .cd, .pwd,
    .chmod, .stat, .run, .mem, .shutdown]

/-- The word that is typed. -/
def word : Verb → Text
  | .help => "help".toList
  | .echo => "echo".toList
  | .touch => "touch".toList
  | .touchReadOnly => "touchro".toList
  | .cat => "cat".toList
  | .write => "write".toList
  | .rm => "rm".toList
  | .mkdir => "mkdir".toList
  | .rmdir => "rmdir".toList
  | .ls => "ls".toList
  | .cd => "cd".toList
  | .pwd => "pwd".toList
  | .chmod => "chmod".toList
  | .stat => "stat".toList
  | .run => "run".toList
  | .mem => "mem".toList
  | .shutdown => "shutdown".toList

/-- The arguments as the table shows them. -/
def arguments : Verb → Text
  | .help | .pwd | .mem | .shutdown => []
  | .echo => " <text>".toList
  | .touch | .touchReadOnly | .cat | .rm | .rmdir | .stat | .run => " <path>".toList
  | .write => " <path> <text>".toList
  | .mkdir => " [-p] <path>".toList
  | .ls => " [-a] [path]".toList
  | .cd => " [path]".toList
  | .chmod => " <path> <0-7>".toList

/-- The word and its arguments. -/
def usage (v : Verb) : Text := v.word ++ v.arguments

/-- What a command does, in a few words. -/
def about : Verb → Text
  | .help => "Show this help message".toList
  | .echo => "Echo text back".toList
  | .touch => "Create file (rw-)".toList
  | .touchReadOnly => "Create read-only file (r--)".toList
  | .cat => "Print file contents".toList
  | .write => "Replace file contents".toList
  | .rm => "Delete a file".toList
  | .mkdir => "Create directory (-p: with parents)".toList
  | .rmdir => "Delete empty directory".toList
  | .ls => "List directory (-a: include hidden)".toList
  | .cd => "Change directory (default /)".toList
  | .pwd => "Print working directory".toList
  | .chmod => "Change permissions".toList
  | .stat => "Show file/dir info".toList
  | .run => "Run an executable script".toList
  | .mem => "Show node usage".toList
  | .shutdown => "Power off".toList

/-- The command that a word names. -/
def ofWord? (w : Text) : Option Verb := all.find? (·.word == w)

/-- Every command is found under its word. -/
theorem ofWord?_word (v : Verb) : ofWord? v.word = some v := by cases v <;> decide

end Verb

end RamFs
