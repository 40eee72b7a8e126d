import RamFs.Proofs.Least
import RamFs.Proofs.Script.Lines

/-!
# RamFs.Proofs.Script.Counter

The shell as it works in place: it holds a volume, counts the scripts that are
open, and keeps a list of what it has done.  A script raises the count when it
starts and lowers it when it is left; only the count is checked before another
one starts.

Nothing in these programs says that they end, as a script may run itself.  They
are the least solution of their equations, and where a program goes on for ever
it gives nothing.  `exec_execute` shows that with at most `maxScriptDepth`
scripts open they end, with the turn that `Shell.execute` gives for the levels
that are left, and with the count as it was.
-/

namespace RamFs

namespace Shell

/-- A shell at work. -/
structure State where
  volume : Volume
  /-- The number of scripts that are open. -/
  depth : Nat
  /-- What has been done so far. -/
  actions : List Action

/-- The state after a turn.  A turn knows nothing of the count, which stays. -/
def State.after (s : State) (turn : Turn) : State :=
  ⟨turn.volume, s.depth, s.actions ++ turn.actions⟩

/-- Programs of a shell at work; one that never ends gives nothing. -/
abbrev Program (α : Type) : Type := StateT State Option α

namespace Program

variable {α β : Type}

/-! ## Single instructions -/

/-- Reads something off the state. -/
def look (f : State → α) : Program α := fun s => some (f s, s)

/-- Does something to the outside. -/
def act (actions : List Action) : Program Unit := fun s =>
  some ((), { s with actions := s.actions ++ actions })

/-- Changes the count of open scripts. -/
def count (f : Nat → Nat) : Program Unit := fun s => some ((), { s with depth := f s.depth })

/-- Performs an operation of the volume. -/
def operate (op : Op) : Program (Except FsError Answer) := fun s =>
  some ((op.run s.volume).1, { s with volume := (op.run s.volume).2 })

/-! ## Programs -/

/-- Adds the outcome of an operation to the log, if the log records it. -/
def record (op : Op) (result : Except FsError Answer) : Program Unit :=
  match record? op with
  | none => return ()
  | some (name, path) => act [.log (.performed name path (failure? result))]

/-- Shows the answer of an operation, if it has one. -/
def present : Except FsError Answer → Program (Except ShellError Flow)
  | .error e => return .error (.volume e)
  | .ok answer => do
    act ((answerLines answer).map .printLine)
    return .ok .next

/-- Performs an operation, records it and shows its answer. -/
def perform (op : Op) : Program (Except ShellError Flow) := do
  let result ← operate op
  record op result
  present result

/-- Reports the error of a line and goes on. -/
def settle (line : Text) : Except ShellError Flow → Program Flow
  | .ok flow => return flow
  | .error e => do
    act [.printLine (e.report line)]
    return .next

section

/-! What carries out the lines of a script is left open here: it is the program of a
line itself. -/

variable (execute : Text → Program Flow)

/-- Carries out lines one after another and stops after a shutdown. -/
def executeAllBy (lines : List Text) : Program Flow :=
  match lines with
  | [] => return .next
  | line :: lines => do
    let flow ← execute line
    match flow with
    | .shutdown => return .shutdown
    | .next => executeAllBy lines

/-- Runs a script, unless too many are open. -/
def runScriptBy (path : Text) : Program (Except ShellError Flow) := do
  let depth ← look State.depth
  if maxScriptDepth ≤ depth then do
    act [.log (.scriptRefused path depth)]
    return .error (.tooDeep maxScriptDepth)
  else do
    let script ← look (·.volume.executable? path)
    match script with
    | none => return .error (.notExecutable path)
    | some content => do
      count (· + 1)
      let depth ← look State.depth
      act [.log (.scriptStarted path depth)]
      let flow ← executeAllBy execute (scriptParts content)
      act [.log (closing path flow)]
      count (· - 1)
      return .ok flow

/-- Carries out a command. -/
def dispatchBy (command : Command) : Program (Except ShellError Flow) :=
  match plan command with
  | .print lines => do
    act (lines.map .printLine)
    return .ok .next
  | .perform op => perform op
  | .script path => runScriptBy execute path
  | .shutdown => do
    act [.log .shutdownRequested]
    return .ok .shutdown

/-- Carries out a line. -/
def executeBy (line : Text) : Program Flow :=
  match Command.parse line with
  | .error e => settle line (.error (.command e))
  | .ok none => settle line (.ok .next)
  | .ok (some command) => do
    let result ← dispatchBy execute command
    settle line result

end

/-- Carries out a line. -/
noncomputable def execute : Text → Program Flow := Partial.least executeBy

/-- Carries out a command. -/
noncomputable def dispatch : Command → Program (Except ShellError Flow) := dispatchBy execute

/-- Runs a script, unless too many are open. -/
noncomputable def runScript : Text → Program (Except ShellError Flow) := runScriptBy execute

/-- Carries out lines one after another and stops after a shutdown. -/
noncomputable def executeAll : List Text → Program Flow := executeAllBy execute

/-! ## The equations -/

section

variable {approx : Nat → Text → Program Flow} {whole : Text → Program Flow}

open Partial (Tends tends_const)

/-- Lines tend to what they do as the program of a line does. -/
theorem tends_executeAllBy (h : ∀ line, Tends (fun n => approx n line) (whole line))
    (lines : List Text) :
    Tends (fun n => executeAllBy (approx n) lines) (executeAllBy whole lines) := by
  induction lines with
  | nil => exact tends_const _
  | cons line lines ih =>
      refine (h line).bind fun flow => ?_
      cases flow with
      | next => exact ih
      | shutdown => exact tends_const _

/-- A script tends to what it does as the program of a line does. -/
theorem tends_runScriptBy (h : ∀ line, Tends (fun n => approx n line) (whole line)) (path : Text) :
    Tends (fun n => runScriptBy (approx n) path) (runScriptBy whole path) := by
  refine (tends_const _).bind fun depth => ?_
  by_cases hroom : maxScriptDepth ≤ depth
  · simp only [if_pos hroom]
    exact tends_const _
  simp only [if_neg hroom]
  refine (tends_const _).bind fun script => ?_
  cases script with
  | none => exact tends_const _
  | some content =>
      exact (tends_const _).bind fun _ => (tends_const _).bind fun _ => (tends_const _).bind
        fun _ => (tends_executeAllBy h _).bind fun _ => tends_const _

/-- One level of the program of a line respects limits, so the least program solves its
equation. -/
theorem respectsLimits_executeBy : Partial.RespectsLimits executeBy := by
  intro approx whole h line
  unfold executeBy
  split
  case h_1 => exact tends_const _
  case h_2 => exact tends_const _
  case h_3 command _ =>
    refine Partial.Tends.bind ?_ fun _ => tends_const _
    unfold dispatchBy
    split
    case h_3 path _ => exact tends_runScriptBy h path
    all_goals exact tends_const _

/-- **The shell solves its equations.** -/
theorem execute_eq (line : Text) : execute line =
    match Command.parse line with
    | .error e => settle line (.error (.command e))
    | .ok none => settle line (.ok .next)
    | .ok (some command) => dispatch command >>= settle line :=
  congrFun (Partial.least_eq respectsLimits_executeBy) line

/-- The lines of a script: the first, and the others unless it shuts down. -/
theorem executeAll_cons (line : Text) (lines : List Text) : executeAll (line :: lines) = (do
    let flow ← execute line
    match flow with
    | .shutdown => return .shutdown
    | .next => executeAll lines) := rfl

end

/-! ## Running a program -/

variable {s t : State}

/-- What a program gives and the state it leaves behind, if it ends. -/
def exec (p : Program α) (s : State) : Option (α × State) := p s

@[simp] theorem exec_pure (a : α) : exec (pure a) s = some (a, s) := rfl

@[simp] theorem exec_look (f : State → α) : exec (look f) s = some (f s, s) := rfl

@[simp] theorem exec_act (actions : List Action) :
    exec (act actions) s = some ((), { s with actions := s.actions ++ actions }) := rfl

@[simp] theorem exec_count (f : Nat → Nat) :
    exec (count f) s = some ((), { s with depth := f s.depth }) := rfl

/-- An operation does to the volume what it does by itself. -/
@[simp] theorem exec_operate (op : Op) :
    exec (operate op) s =
      some ((op.run s.volume).1, { s with volume := (op.run s.volume).2 }) := rfl

/-- A program goes on with what the one before it left behind. -/
theorem exec_bind {p : Program α} {a : α} (e : exec p s = some (a, t)) (f : α → Program β) :
    exec (p >>= f) s = exec (f a) t := by
  change (p s).bind (fun r => f r.1 r.2) = f a t
  change p s = some (a, t) at e
  rw [e, Option.bind_some]

/-! ## Turns -/

/-- A line that went well is settled with nothing said. -/
theorem exec_settle_ok (line : Text) (flow : Flow) :
    exec (settle line (.ok flow)) s = some (flow, s) := rfl

/-- A line that failed is reported, and the next one follows. -/
theorem exec_settle_error (line : Text) (e : ShellError) :
    exec (settle line (.error e)) s = some (.next, s.after (.failed s.volume line e)) := rfl

/-- An operation that the log does not record leaves no record. -/
theorem exec_record_none {op : Op} (h : record? op = none) (result : Except FsError Answer) :
    exec (record op result) s = some ((), s) := by
  rw [record, h]
  rfl

/-- An operation that the log records leaves one record. -/
theorem exec_record_some {op : Op} {name path : Text} (h : record? op = some (name, path))
    (result : Except FsError Answer) : exec (record op result) s =
      some ((), { s with
        actions := s.actions ++ [.log (.performed name path (failure? result))] }) := by
  rw [record, h]
  rfl

/-- A failed operation is reported. -/
theorem exec_present_error (line : Text) (e : FsError) :
    exec (present (.error e) >>= settle line) s = some (.next, { s with
      actions := s.actions ++ [.printLine ((ShellError.volume e).report line)] }) := rfl

/-- The answer of an operation is printed. -/
theorem exec_present_ok (line : Text) (answer : Answer) :
    exec (present (.ok answer) >>= settle line) s = some (.next, { s with
      actions := s.actions ++ (answerLines answer).map .printLine }) := rfl

/-- An operation ends with its turn. -/
theorem exec_perform (op : Op) (line : Text) :
    exec (perform op >>= settle line) s =
      some ((Shell.perform s.volume line op).flow, s.after (Shell.perform s.volume line op)) := by
  rw [perform, bind_assoc, exec_bind (exec_operate op), bind_assoc]
  cases hr : record? op with
  | none =>
      rw [exec_bind (exec_record_none hr _)]
      cases e : (op.run s.volume).1 with
      | error x => simp [exec_present_error, Shell.perform, hr, e, State.after]
      | ok answer => simp [exec_present_ok, Shell.perform, hr, e, State.after]
  | some entry =>
      rw [exec_bind (exec_record_some hr _)]
      cases e : (op.run s.volume).1 with
      | error x => simp [exec_present_error, Shell.perform, hr, e, State.after]
      | ok answer => simp [exec_present_ok, Shell.perform, hr, e, State.after]

/-- Lines carried out one after another end with the sequence of their turns. -/
theorem exec_executeAll {run : Volume → Text → Turn} {depth : Nat}
    (h : ∀ s line, s.depth = depth →
      exec (execute line) s = some ((run s.volume line).flow, s.after (run s.volume line)))
    (hs : s.depth = depth) (lines : List Text) :
    exec (executeAll lines) s =
      some ((sequence run s.volume lines).flow, s.after (sequence run s.volume lines)) := by
  induction lines generalizing s with
  | nil =>
      rw [executeAll, executeAllBy, sequence]
      simp [Turn.quiet, State.after]
  | cons line lines ih =>
      rw [executeAll_cons, exec_bind (h s line hs)]
      cases hflow : (run s.volume line).flow with
      | shutdown =>
          rw [sequence_cons_shutdown hflow, hflow]
          rfl
      | next =>
          -- a turn leaves the count, so the next line starts with as many scripts open
          have hrest := ih (s := s.after (run s.volume line)) hs
          rw [sequence_cons_next hflow]
          simp only [hrest]
          simp [State.after, Turn.andThen]

/-- A line that runs no script ends with its turn, whatever the count is. -/
theorem exec_execute_direct {line : Text} {turn : Turn} (d : Direct s.volume line turn) :
    exec (execute line) s = some (turn.flow, s.after turn) := by
  rw [execute_eq]
  cases d with
  | unread parsed =>
      simp only [parsed, exec_settle_error]
      rfl
  | blank parsed => simp [parsed, exec_settle_ok, State.after, Turn.quiet]
  | print parsed planned =>
      simp only [parsed, dispatch, dispatchBy, planned, bind_assoc, pure_bind]
      rw [exec_bind (exec_act _), exec_settle_ok]
      rfl
  | perform parsed planned => simp only [parsed, dispatch, dispatchBy, planned, exec_perform]
  | shutdown parsed planned =>
      simp only [parsed, dispatch, dispatchBy, planned, bind_assoc, pure_bind]
      rw [exec_bind (exec_act _), exec_settle_ok]
      rfl

/-- At the limit a script is refused. -/
theorem exec_runScript_refused (hs : s.depth = maxScriptDepth) (line path : Text) :
    exec (runScript path >>= settle line) s =
      some (.next, s.after (.refused s.volume line path)) := by
  rw [runScript, runScriptBy, bind_assoc, exec_bind (exec_look _),
    if_pos (Nat.le_of_eq hs.symm), bind_assoc, exec_bind (exec_act _), pure_bind,
    exec_settle_error, hs]
  simp [State.after, Turn.refused, Turn.failed, Turn.quiet, hs]

/-- Below the limit a script that is not there fails. -/
theorem exec_runScript_missing (hs : s.depth < maxScriptDepth) (line : Text) {path : Text}
    (hx : s.volume.executable? path = none) :
    exec (runScript path >>= settle line) s =
      some (.next, s.after (.failed s.volume line (.notExecutable path))) := by
  rw [runScript, runScriptBy, bind_assoc, exec_bind (exec_look _), if_neg (Nat.not_le.mpr hs),
    bind_assoc, exec_bind (exec_look _), hx]
  simp only [pure_bind, exec_settle_error]

/-- A script ends with the turns of its lines between its two messages if those
lines end with their turns, one level down. -/
theorem exec_runScript {levels : Nat} (hs : s.depth + (levels + 1) = maxScriptDepth) {path : Text}
    {content : Bytes} (hx : s.volume.executable? path = some content)
    (h : ∀ t line, t.depth = s.depth + 1 →
      exec (execute line) t = some ((Shell.execute levels t.volume line).flow,
        t.after (Shell.execute levels t.volume line))) (line : Text) :
    exec (runScript path >>= settle line) s =
      some ((sequence (Shell.execute levels) s.volume (scriptParts content)).flow,
        s.after ((sequence (Shell.execute levels) s.volume (scriptParts content)).enclose path
          (maxScriptDepth - levels))) := by
  have hroom : ¬ maxScriptDepth ≤ s.depth := by omega
  have hnumber : maxScriptDepth - levels = s.depth + 1 := by omega
  rw [runScript, runScriptBy, bind_assoc, exec_bind (exec_look _), if_neg hroom, bind_assoc,
    exec_bind (exec_look _), hx]
  -- the lines start with the script counted and its first message logged
  have hrun := exec_executeAll (s := ⟨s.volume, s.depth + 1, s.actions ++
    [.log (.scriptStarted path (s.depth + 1))]⟩) h rfl (scriptParts content)
  rw [executeAll] at hrun
  simp only [bind_assoc, pure_bind]
  rw [exec_bind (exec_count _), exec_bind (exec_look _), exec_bind (exec_act _),
    exec_bind hrun, exec_bind (exec_act _), exec_bind (exec_count _), exec_settle_ok]
  simp [State.after, Turn.enclose, hnumber]

/-- Carries out a command that was read off a line. -/
noncomputable def carryOut (line : Text) (command : Command) : Program Flow :=
  dispatch command >>= settle line

/-- A line that is read as a command carries that command out. -/
theorem execute_of_parse {line : Text} {command : Command}
    (h : Command.parse line = .ok (some command)) : execute line = carryOut line command := by
  rw [execute_eq, h, carryOut]

theorem carryOut_run (line path : Text) :
    carryOut line (.run path) = runScript path >>= settle line := by
  rw [carryOut, dispatch, dispatchBy, plan, runScript]

/-- **The counter is enough**: with as many scripts open as leave `levels` more,
the program of a line ends with the turn of `Shell.execute`, and the count is as
it was. -/
theorem exec_execute {levels : Nat} (hs : s.depth + levels = maxScriptDepth) (line : Text) :
    exec (execute line) s = some ((Shell.execute levels s.volume line).flow,
      s.after (Shell.execute levels s.volume line)) := by
  -- scripts may change each other on the way: what shrinks is the number of levels alone
  induction levels generalizing s line with
  | zero =>
      obtain ⟨path, h⟩ | ⟨turn, d⟩ := run_or_direct s.volume line
      · rw [execute_of_parse h, carryOut_run, exec_runScript_refused hs, execute_refused h]
        rfl
      · rw [d.execute_eq, exec_execute_direct d]
  | succ levels ih =>
      obtain ⟨path, h⟩ | ⟨turn, d⟩ := run_or_direct s.volume line
      · rw [execute_of_parse h, carryOut_run]
        cases hx : s.volume.executable? path with
        | none =>
            rw [exec_runScript_missing (by omega) line hx, execute_missing h hx]
            rfl
        | some content =>
            rw [exec_runScript hs hx (fun t line ht => ih (by omega) line), execute_script h hx]
            rfl
      · rw [d.execute_eq, exec_execute_direct d]

/-- The turn of a program that starts with `depth` scripts open, if it ends. -/
def turn (p : Program Flow) (depth : Nat) (v : Volume) : Option Turn :=
  (exec p ⟨v, depth, []⟩).map fun r => ⟨r.2.volume, r.2.actions, r.1⟩

/-- The program of a line ends, with the turn for the levels that are left. -/
theorem turn_execute {depth : Nat} (hd : depth ≤ maxScriptDepth) (v : Volume) (line : Text) :
    turn (execute line) depth v = some (Shell.execute (maxScriptDepth - depth) v line) := by
  rw [turn, exec_execute (Nat.add_sub_of_le hd)]
  rfl

/-- The turn of a script, on whatever line it was asked for. -/
theorem turn_run {depth levels : Nat} (hd : depth + (levels + 1) = maxScriptDepth) {v : Volume}
    {path : Text} {content : Bytes} (hx : v.executable? path = some content) (line : Text) :
    turn (carryOut line (.run path)) depth v =
      some ((sequence (Shell.execute levels) v (scriptParts content)).enclose path
        (maxScriptDepth - levels)) := by
  have hrun := exec_runScript (s := ⟨v, depth, []⟩) hd hx
    (fun t line (ht : t.depth = depth + 1) => exec_execute (by omega) line) line
  rw [turn, carryOut_run, hrun]
  rfl

end Program

end Shell

end RamFs
