import RamFs.Shell.Session

/-!
# RamFs.Proofs.Script.Lines

The ways a line can go.  Most lines run no script: their turn (`Direct`) is the
same however many scripts may still be opened, changes the volume by one
operation at most, and logs nothing about scripts (`Turn.Plain`).  Only a line
that runs a script looks at the levels, and its turn is a refusal, a failure, or
the turns of the lines of the script between two messages.

`execute_induct` is the induction over lines and scripts that follows, and the
rule by which what scripts do is proved.
-/

namespace RamFs

/-- Whether a message is about a script. -/
def Message.isScript : Message → Bool
  | .scriptRefused _ _ | .scriptStarted _ _ | .scriptDone _ | .scriptStopped _ => true
  | _ => false

namespace Shell

variable {v : Volume} {line path : Text} {content : Bytes}

/-! ## Operations -/

/-- The turn of an operation leaves the volume that the operation leaves. -/
theorem volume_perform (op : Op) : (perform v line op).volume = (op.run v).2 := by
  rw [perform]
  cases (op.run v).1 <;> rfl

/-- The log says of an operation at most how it went. -/
theorem messages_perform (op : Op) : Action.messages (perform v line op).actions =
    ((record? op).map fun r => Message.performed r.1 r.2 (failure? (op.run v).1)).toList := by
  rw [perform]
  cases record? op <;> cases (op.run v).1 <;> simp

/-! ## Turns -/

namespace Turn

/-- A turn that runs no script: at most one operation is performed, and the log
says nothing about scripts. -/
structure Plain (v : Volume) (t : Turn) : Prop where
  volume : t.volume = v ∨ ∃ op : Op, t.volume = (op.run v).2
  silent : ∀ m ∈ Action.messages t.actions, m.isScript = false

/-- A turn and the one after it. -/
def andThen (t u : Turn) : Turn := ⟨u.volume, t.actions ++ u.actions, u.flow⟩

/-- The turn of a line that runs one script too many. -/
def refused (v : Volume) (line path : Text) : Turn :=
  ⟨v, [.log (.scriptRefused path maxScriptDepth),
    .printLine ((ShellError.tooDeep maxScriptDepth).report line)], .next⟩

/-- The turn of a script from that of its lines; `number` is its place among the
scripts that are open. -/
def enclose (path : Text) (number : Nat) (t : Turn) : Turn :=
  ⟨t.volume, .log (.scriptStarted path number) :: t.actions ++ [.log (closing path t.flow)], t.flow⟩

/-- A turn that leaves the volume and logs nothing of scripts is plain. -/
theorem plain_quiet {actions : List Action}
    (h : ∀ m ∈ Action.messages actions, m.isScript = false) : Plain v (quiet v actions) :=
  ⟨Or.inl rfl, h⟩

theorem plain_failed (e : ShellError) : Plain v (failed v line e) :=
  plain_quiet (by simp)

theorem plain_perform (op : Op) : Plain v (perform v line op) := by
  refine ⟨Or.inr ⟨op, volume_perform op⟩, ?_⟩
  rw [messages_perform]
  cases record? op with
  | none => simp
  | some entry => simp [Message.isScript]

end Turn

/-! ## The turn of a line -/

/-- Only `run` is planned as a script. -/
theorem plan_eq_script {command : Command} (h : plan command = .script path) :
    command = .run path := by
  cases command with
  | run p =>
      cases h
      rfl
  | mkdir p parents => cases parents <;> contradiction
  | _ => contradiction

/-- The turns of the lines that run no script. -/
inductive Direct (v : Volume) (line : Text) : Turn → Prop
  | unread {e : CommandError} (parsed : Command.parse line = .error e) :
      Direct v line (.failed v line (.command e))
  | blank (parsed : Command.parse line = .ok none) : Direct v line (.quiet v [])
  | print {command : Command} {lines : List Text} (parsed : Command.parse line = .ok (some command))
      (planned : plan command = .print lines) : Direct v line (.quiet v (lines.map .printLine))
  | perform {command : Command} {op : Op} (parsed : Command.parse line = .ok (some command))
      (planned : plan command = .perform op) : Direct v line (perform v line op)
  | shutdown {command : Command} (parsed : Command.parse line = .ok (some command))
      (planned : plan command = .shutdown) :
      Direct v line ⟨v, [.log .shutdownRequested], .shutdown⟩

/-- Every line runs a script or goes one of the direct ways. -/
theorem run_or_direct (v : Volume) (line : Text) :
    (∃ path, Command.parse line = .ok (some (.run path))) ∨ ∃ t, Direct v line t := by
  cases parsed : Command.parse line with
  | error e => exact Or.inr ⟨_, .unread parsed⟩
  | ok command => cases command with
    | none => exact Or.inr ⟨_, .blank parsed⟩
    | some command => cases planned : plan command with
      | print lines => exact Or.inr ⟨_, .print parsed planned⟩
      | perform op => exact Or.inr ⟨_, .perform parsed planned⟩
      | script path => exact Or.inl ⟨path, by rw [plan_eq_script planned]⟩
      | shutdown => exact Or.inr ⟨_, .shutdown parsed planned⟩

/-- Every direct turn is plain. -/
theorem Direct.plain {t : Turn} (d : Direct v line t) : t.Plain v := by
  cases d with
  | unread => exact Turn.plain_failed _
  | blank | print => exact Turn.plain_quiet (by simp)
  | perform => exact Turn.plain_perform _
  | shutdown => exact ⟨Or.inl rfl, by simp [Message.isScript]⟩

/-- A line that runs no script has one turn, whatever the levels. -/
theorem Direct.execute_eq {t : Turn} (d : Direct v line t) (levels : Nat) :
    execute levels v line = t := by
  rw [execute.eq_def]
  cases d with
  | unread parsed | blank parsed => simp only [parsed]
  | print parsed planned | perform parsed planned | shutdown parsed planned =>
      simp only [parsed, planned]

/-- With no level left a line that runs a script is refused. -/
theorem execute_refused (h : Command.parse line = .ok (some (.run path))) :
    execute 0 v line = .refused v line path := by
  rw [execute, h]
  rfl

/-- A line that runs a script fails if there is none at the path. -/
theorem execute_missing (h : Command.parse line = .ok (some (.run path)))
    (hx : v.executable? path = none) (levels : Nat) :
    execute (levels + 1) v line = .failed v line (.notExecutable path) := by
  rw [execute, h]
  simp only [plan, hx]

/-- A line that runs a script takes the turns of its lines, between two messages and with a
level less. -/
theorem execute_script (h : Command.parse line = .ok (some (.run path)))
    (hx : v.executable? path = some content) (levels : Nat) :
    execute (levels + 1) v line =
      (sequence (execute levels) v (scriptParts content)).enclose path
        (maxScriptDepth - levels) := by
  rw [execute, h]
  simp only [plan, hx]
  rfl

/-! ## The turns of several lines -/

/-- A line that shuts down is the last of its sequence. -/
theorem sequence_cons_shutdown {run : Volume → Text → Turn} (h : (run v line).flow = .shutdown)
    (lines : List Text) : sequence run v (line :: lines) = run v line := by
  simp only [sequence, h]

/-- A line that goes on is followed by the others, on the volume that it leaves. -/
theorem sequence_cons_next {run : Volume → Text → Turn} (h : (run v line).flow = .next)
    (lines : List Text) : sequence run v (line :: lines) =
      (run v line).andThen (sequence run (run v line).volume lines) := by
  simp only [sequence, h]
  rfl

/-- What holds of the turn of every line holds, line by line, of several. -/
theorem sequence_induct {run : Volume → Text → Turn} {P : Volume → Text → Turn → Prop}
    {Q : Volume → List Text → Turn → Prop} (single : ∀ v line, P v line (run v line))
    (none : ∀ v, Q v [] (.quiet v []))
    (last : ∀ v line lines t, P v line t → t.flow = .shutdown → Q v (line :: lines) t)
    (more : ∀ v line lines t u, P v line t → t.flow = .next → Q t.volume lines u →
      Q v (line :: lines) (t.andThen u))
    (v : Volume) (lines : List Text) : Q v lines (sequence run v lines) := by
  induction lines generalizing v with
  | nil => exact none v
  | cons line lines ih =>
      cases h : (run v line).flow with
      | shutdown =>
          rw [sequence_cons_shutdown h]
          exact last v line lines _ (single v line) h
      | next =>
          rw [sequence_cons_next h]
          exact more v line lines _ _ (single v line) h (ih _)

/-- **Induction over lines and scripts**: `P` of the turns of single lines, and
`Q` of the turns of several. -/
theorem execute_induct {P : Nat → Volume → Turn → Prop} {Q : Nat → Volume → List Text → Turn → Prop}
    (plain : ∀ n v t, t.Plain v → P n v t)
    (refused : ∀ v line path, P 0 v (.refused v line path))
    (script : ∀ n v path content t, v.executable? path = some content →
      Q n v (scriptParts content) t → P (n + 1) v (t.enclose path (maxScriptDepth - n)))
    (none : ∀ n v, Q n v [] (.quiet v []))
    (last : ∀ n v line lines t, P n v t → t.flow = .shutdown → Q n v (line :: lines) t)
    (more : ∀ n v line lines t u, P n v t → t.flow = .next → Q n t.volume lines u →
      Q n v (line :: lines) (t.andThen u))
    (levels : Nat) (v : Volume) (line : Text) : P levels v (execute levels v line) := by
  induction levels generalizing v line with
  | zero =>
      obtain ⟨path, h⟩ | ⟨t, d⟩ := run_or_direct v line
      · rw [execute_refused h]
        exact refused v line path
      · rw [d.execute_eq]
        exact plain 0 v t d.plain
  | succ n ih =>
      obtain ⟨path, h⟩ | ⟨t, d⟩ := run_or_direct v line
      · cases hx : v.executable? path with
        | none =>
            rw [execute_missing h hx]
            exact plain (n + 1) v _ (Turn.plain_failed _)
        | some content =>
            rw [execute_script h hx]
            exact script n v path content _ hx (sequence_induct (P := fun v _ t => P n v t) ih
              (none n) (last n) (more n) v (scriptParts content))
      · rw [d.execute_eq]
        exact plain (n + 1) v t d.plain

end Shell

end RamFs
