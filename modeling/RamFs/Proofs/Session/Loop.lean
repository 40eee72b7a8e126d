import RamFs.Console.Prepared
import RamFs.Kernel
import RamFs.Proofs.Console.Keys
import RamFs.Proofs.Script.Counter

/-!
# RamFs.Proofs.Session.Loop

The kernel as it works in place, on a console with a prepared input.  It takes one
octet after another off the console and writes what it shows as it goes.  The
buffer of its line reader is kept from line to line and from run to run: it is
cleared before a line is read, and nothing else is done about what is left in it.

These programs are the least solution of their equations, and one that goes on for
ever gives nothing.  `run_run` shows that a run ends with what `Kernel.run` gives,
whatever the buffer holds before it.
-/

namespace RamFs

namespace Kernel

open LineEditor (endsLine erases isIgnored eraseLast eraseEcho lineEndEcho limitOf defaultCapacity
  press keyEcho read readFrom)

/-! ## Exchanges -/

section

variable {echoes : Bool} {v w : Volume} {input rest : Bytes} {actions : List Action}

/-- A session whose first exchange ends it. -/
theorem converse_of_ends (h : exchange echoes v input = ⟨w, actions, rest, true⟩) :
    converse echoes v input = ⟨w, .print prompt :: actions, rest⟩ := by
  rw [converse]
  split <;> simp_all

/-- A session whose first exchange goes on. -/
theorem converse_of_goes_on (h : exchange echoes v input = ⟨w, actions, rest, false⟩) :
    converse echoes v input = ⟨(converse echoes w rest).volume,
      .print prompt :: actions ++ (converse echoes w rest).actions,
      (converse echoes w rest).rest⟩ := by
  rw [converse]
  split <;> simp_all

end

/-! ## The kernel in place -/

/-- A kernel at work. -/
structure State where
  volume : Volume
  /-- The number of scripts that are open. -/
  depth : Nat
  /-- The buffer of the line reader, the last octet first. -/
  held : Bytes
  console : Prepared
  log : List Message

namespace State

/-- The state after something was done to the outside. -/
def does (s : State) (actions : List Action) : State :=
  { s with
    console := s.console.write (Action.output actions)
    log := s.log ++ Action.messages actions }

/-- The state after a part of a session, which leaves something in the buffer. -/
def after (s : State) (held : Bytes) (r : Run) : State where
  volume := r.volume
  depth := s.depth
  held := held
  console := ⟨r.rest, s.console.written ++ Action.output r.actions⟩
  log := s.log ++ Action.messages r.actions

/-- The state with more input waiting. -/
def queue (s : State) (input : Bytes) : State := { s with console := s.console.push input }

@[simp] theorem volume_after (s : State) (held : Bytes) (r : Run) :
    (s.after held r).volume = r.volume := rfl

@[simp] theorem held_after (s : State) (held : Bytes) (r : Run) : (s.after held r).held = held :=
  rfl

@[simp] theorem pending_after (s : State) (held : Bytes) (r : Run) :
    (s.after held r).console.pending = r.rest := rfl

/-- What is done to the outside is a part of a session. -/
theorem does_eq (s : State) (actions : List Action) :
    s.does actions = s.after s.held ⟨s.volume, actions, s.console.pending⟩ := rfl

@[simp] theorem does_write_nil (s : State) : s.does [.write []] = s := by
  simp [does, Prepared.write]

/-- A part of a session and the next one. -/
@[simp] theorem after_after (s : State) (held held' : Bytes) (r r' : Run) :
    (s.after held r).after held' r' =
      s.after held' ⟨r'.volume, r.actions ++ r'.actions, r'.rest⟩ := by
  simp [after]

end State

/-- Programs of a kernel at work; one that never ends gives nothing. -/
abbrev Program (α : Type) : Type := StateT State Option α

namespace Program

/-! ## Single instructions -/

/-- Does something to the outside. -/
def act (actions : List Action) : Program Unit := modify (·.does actions)

/-- Shows what is typed, unless the console shows it by itself. -/
def echo (echoes : Bool) (bytes : Bytes) : Program Unit :=
  if echoes then act [.write bytes] else return ()

/-- Puts octets into the buffer. -/
def hold (held : Bytes) : Program Unit := modify ({ · with held })

/-- Takes the next octet off the console, if one waits. -/
def nextOctet : Program (Option UInt8) :=
  modifyGet fun s => (s.console.read.1, { s with console := s.console.read.2 })

/-- Lets the shell work. -/
def onShell {α : Type} (p : Shell.Program α) : Program α := fun s =>
  (p.exec ⟨s.volume, s.depth, []⟩).map fun r =>
    (r.1, { s.does r.2.actions with volume := r.2.volume, depth := r.2.depth })

/-! ## Programs -/

/-- Deals with a key that does not end the line. -/
def key (limit : Nat) (echoes : Bool) (b : UInt8) : Program Unit := do
  let s ← get
  if erases b then do
    hold (eraseLast s.held)
    if s.held ≠ [] then echo echoes eraseEcho
  else if isIgnored b then return ()
  else if s.held.length < limit then do
    hold (b :: s.held)
    echo echoes [b]

/-- Takes one octet and reads on by `readOn`, unless the line ends or no input waits. -/
def readOnBy (limit : Nat) (readOn : Bool → Program (Option Bytes)) (echoes : Bool) :
    Program (Option Bytes) := do
  let octet ← nextOctet
  let s ← get
  match octet with
  | none => return if s.held = [] then none else some s.held.reverse
  | some b =>
    if endsLine b then do
      echo echoes lineEndEcho
      return some s.held.reverse
    else do
      key limit echoes b
      readOn echoes

/-- Reads on until the line ends or no input waits. -/
noncomputable def readOn (limit : Nat) : Bool → Program (Option Bytes) :=
  Partial.least (readOnBy limit)

/-- Reads a line into the cleared buffer. -/
noncomputable def readLine (echoes : Bool) : Program (Option Bytes) := do
  hold []
  readOn (limitOf defaultCapacity) echoes

/-- Carries out a line that was read and goes on by `loop`. -/
noncomputable def answerBy (loop : Bool → Program Unit) (echoes : Bool) :
    Option Bytes → Program Unit
  | none => act [.log .inputClosed]
  | some line => do
    let flow ← onShell (Shell.Program.execute (Text.decode line))
    match flow with
    | .shutdown => return ()
    | .next => loop echoes

/-- Prompts for a line, answers it and goes on by `loop`. -/
noncomputable def loopBy (loop : Bool → Program Unit) (echoes : Bool) : Program Unit := do
  act [.print prompt]
  let line ← readLine echoes
  answerBy loop echoes line

/-- Prompts for lines and answers them. -/
noncomputable def loop : Bool → Program Unit := Partial.least loopBy

/-- Carries out a line that was read and goes on. -/
noncomputable def answer : Bool → Option Bytes → Program Unit := answerBy loop

/-- A whole session. -/
noncomputable def run (platform : Platform) : Program Unit := do
  act [.print banner]
  loop (!platform.echoesInput)
  act (.log .shuttingDown :: platform.powerActions)

/-! ## The equations -/

section

open Partial (tends_const)

/-- One octet respects limits, so the least program that reads a line solves its equation. -/
theorem respectsLimits_readOnBy (limit : Nat) : Partial.RespectsLimits (readOnBy limit) := by
  intro approx whole h echoes
  refine (tends_const _).bind fun octet => (tends_const _).bind fun s => ?_
  cases octet with
  | none => exact tends_const _
  | some b =>
      by_cases hb : endsLine b = true
      · simp only [if_pos hb]
        exact tends_const _
      · simp only [if_neg hb]
        exact (tends_const _).bind fun _ => h echoes

/-- One turn of the loop respects limits, so the least loop solves its equation. -/
theorem respectsLimits_loopBy : Partial.RespectsLimits loopBy := by
  intro approx whole h echoes
  refine (tends_const _).bind fun _ => (tends_const _).bind fun line => ?_
  cases line with
  | none => exact tends_const _
  | some line =>
      refine (tends_const _).bind fun flow => ?_
      cases flow with
      | next => exact h echoes
      | shutdown => exact tends_const _

/-- **The line reader solves its equation.** -/
theorem readOn_eq (limit : Nat) (echoes : Bool) :
    readOn limit echoes = readOnBy limit (readOn limit) echoes :=
  congrFun (Partial.least_eq (respectsLimits_readOnBy limit)) echoes

/-- **The loop solves its equation.** -/
theorem loop_eq (echoes : Bool) : loop echoes = (do
    act [.print prompt]
    let line ← readLine echoes
    answer echoes line) :=
  congrFun (Partial.least_eq respectsLimits_loopBy) echoes

end

/-! ## Running a program -/

variable {α β : Type} {s : State} {limit : Nat} {echoes : Bool}

/-- What a program gives and the state it leaves behind, if it ends. -/
def exec (p : Program α) (s : State) : Option (α × State) := p s

@[simp] theorem exec_pure (a : α) : exec (pure a) s = some (a, s) := rfl

@[simp] theorem exec_bind (p : Program α) (f : α → Program β) :
    exec (p >>= f) s = (exec p s).bind fun r => exec (f r.1) r.2 := rfl

@[simp] theorem exec_map (f : α → β) (p : Program α) :
    exec (f <$> p) s = (exec p s).map fun r => (f r.1, r.2) := by
  rw [← bind_pure_comp, exec_bind]
  cases exec p s <;> rfl

@[simp] theorem exec_get : exec get s = some (s, s) := rfl

@[simp] theorem exec_ite (c : Prop) [Decidable c] (p q : Program α) :
    exec (if c then p else q) s = if c then exec p s else exec q s := apply_ite (exec · s) c p q

@[simp] theorem exec_act (actions : List Action) :
    exec (act actions) s = some ((), s.does actions) := rfl

@[simp] theorem exec_hold (held : Bytes) : exec (hold held) s = some ((), { s with held }) := rfl

/-- Taking an octet off the console. -/
@[simp] theorem exec_nextOctet : exec nextOctet s =
    some (s.console.read.1, { s with console := s.console.read.2 }) := rfl

/-- Showing octets, if the console does not. -/
@[simp] theorem exec_echo (bytes : Bytes) : exec (echo echoes bytes) s =
    some ((), s.does [.write (if echoes then bytes else [])]) := by
  cases echoes
  · simp [echo]
  · simp [echo]

/-! ## Reading -/

/-- Dealing with a key is a press of it, with its echo. -/
theorem exec_key (b : UInt8) : exec (key limit echoes b) s = some ((), s.after
    (press limit s.held b)
    ⟨s.volume, [.write (if echoes then keyEcho limit s.held b else [])], s.console.pending⟩) := by
  unfold key
  by_cases he : erases b = true
  · by_cases hs : s.held = [] <;> simp [press, keyEcho, he, hs, State.does_eq, State.after]
  by_cases hi : isIgnored b = true
  · simp [press, keyEcho, he, hi, State.after]
  by_cases hl : s.held.length < limit
  · simp [press, keyEcho, he, hi, hl, State.does_eq, State.after]
  · simp [press, keyEcho, he, hi, hl, State.after]

/-- Taking the next octet off the console. -/
theorem exec_nextOctet_cons {b : UInt8} {input : Bytes} (h : s.console.pending = b :: input) :
    exec nextOctet s = some (some b, s.after s.held ⟨s.volume, [], input⟩) := by
  simp [Prepared.read, h, State.after]

/-- With no input waiting there is no octet, and nothing changes. -/
theorem exec_nextOctet_nil (h : s.console.pending = []) :
    exec nextOctet s = some (none, s.after s.held ⟨s.volume, [], []⟩) := by
  obtain ⟨v, depth, held, ⟨pending, written⟩, log⟩ := s
  cases h
  simp [Prepared.read, State.after]

/-- Reading ends, with what the octets that wait give, and leaves the ones after
the line. -/
theorem exec_readOn (limit : Nat) (echoes : Bool) {input : Bytes} (h : s.console.pending = input) :
    ∃ held, exec (readOn limit echoes) s = some ((readFrom limit echoes s.held input).line,
      s.after held ⟨s.volume, [.write (readFrom limit echoes s.held input).echo],
        (readFrom limit echoes s.held input).rest⟩) := by
  induction input generalizing s with
  | nil =>
      refine ⟨s.held, ?_⟩
      rw [readOn_eq, readOnBy, exec_bind, exec_nextOctet_nil h]
      simp [readFrom, State.after]
  | cons b input ih =>
      rw [readOn_eq, readOnBy, exec_bind, exec_nextOctet_cons h]
      by_cases hb : endsLine b = true
      · refine ⟨s.held, ?_⟩
        simp [readFrom, hb, State.does_eq, State.after]
      · have hkey : readFrom limit echoes s.held (b :: input) = _ :=
          LineEditor.readFrom_key (by simpa using hb)
        obtain ⟨held, hrest⟩ := ih (s := s.after (press limit s.held b)
          ⟨s.volume, [.write (if echoes then keyEcho limit s.held b else [])], input⟩) rfl
        refine ⟨held, ?_⟩
        simp only [State.volume_after, State.held_after, State.after_after] at hrest
        simp only [exec_bind, exec_get, exec_ite, hb, exec_key, Option.bind_some,
          State.volume_after, State.held_after, State.pending_after, State.after_after,
          List.nil_append, hrest, hkey]
        simp [State.after, LineEditor.Reading.after]

/-- A line is read as from an empty buffer, whatever the last one left in it. -/
theorem exec_readLine {r : LineEditor.Reading}
    (h : read (limitOf defaultCapacity) echoes s.console.pending = r) :
    ∃ held, exec (readLine echoes) s =
      some (r.line, s.after held ⟨s.volume, [.write r.echo], r.rest⟩) := by
  obtain ⟨held, hread⟩ :=
    exec_readOn (s := { s with held := [] }) (limitOf defaultCapacity) echoes rfl
  subst h
  exact ⟨held, hread⟩

/-! ## Lines -/

/-- The shell ends with the turn of the line, and with no script open again. -/
theorem exec_onShell_execute (hs : s.depth = 0) (line : Text) {t : Shell.Turn}
    (h : Shell.executeLine s.volume line = t) :
    exec (onShell (Shell.Program.execute line)) s =
      some (t.flow, s.after s.held ⟨t.volume, t.actions, s.console.pending⟩) := by
  have hlevels : (⟨s.volume, s.depth, []⟩ : Shell.State).depth + Shell.maxScriptDepth =
      Shell.maxScriptDepth := by simp [hs]
  have hturn := Shell.Program.exec_execute hlevels line
  change Option.map _ (Shell.Program.exec (Shell.Program.execute line) _) = _
  rw [hturn]
  subst h
  rfl

/-- One time around the loop is one exchange. -/
theorem exec_loop_eq (hs : s.depth = 0) {e : Exchange}
    (h : exchange echoes s.volume s.console.pending = e) : ∃ held,
      exec (loop echoes) s =
        if e.ends then some ((), s.after held ⟨e.volume, .print prompt :: e.actions, e.rest⟩)
        else exec (loop echoes) (s.after held ⟨e.volume, .print prompt :: e.actions, e.rest⟩) := by
  subst h
  unfold exchange respond
  generalize hr : read (limitOf defaultCapacity) echoes s.console.pending = r
  obtain ⟨held, hread⟩ := exec_readLine (s := s.does [.print prompt]) hr
  -- the prompt and the reading are one part of the session
  let t := s.after held ⟨s.volume, [.print prompt, .write r.echo], r.rest⟩
  have hpart : exec (readLine echoes) (s.does [.print prompt]) = some (r.line, t) := by
    rw [hread, s.does_eq, State.after_after]
    rfl
  have hround : exec (loop echoes) s = exec (answer echoes r.line) t := by
    rw [loop_eq, exec_bind, exec_act, Option.bind_some, exec_bind, hpart, Option.bind_some]
  refine ⟨held, ?_⟩
  rw [hround, answer]
  cases r.line with
  | none => simp [answerBy, State.does_eq, t]
  | some line =>
      have hturn := exec_onShell_execute (s := t) hs (Text.decode line) rfl
      simp only [answerBy, exec_bind, hturn, Option.bind_some]
      change exec (match (Shell.executeLine s.volume (Text.decode line)).flow with
        | .shutdown => _ | .next => _) _ = _
      cases hflow : (Shell.executeLine s.volume (Text.decode line)).flow with
      | shutdown => simp [t]
      | next => simp [t]

/-- **The loop ends**, with what `converse` gives. -/
theorem exec_loop (echoes : Bool) {v : Volume} {input : Bytes} (hs : s.depth = 0)
    (hv : s.volume = v) (h : s.console.pending = input) :
    ∃ held, exec (loop echoes) s = some ((), s.after held (converse echoes v input)) := by
  induction v, input using converse.induct echoes generalizing s with
  | case1 v input w actions rest he =>
      subst hv h
      obtain ⟨held, hloop⟩ := exec_loop_eq hs he
      exact ⟨held, by rw [hloop, converse_of_ends he]; rfl⟩
  | case2 v input w actions rest he ih =>
      subst hv h
      obtain ⟨held, hloop⟩ := exec_loop_eq hs he
      obtain ⟨held', hrest⟩ := ih (s := s.after held ⟨w, .print prompt :: actions, rest⟩) hs rfl rfl
      rw [State.after_after] at hrest
      exact ⟨held', by rw [hloop, converse_of_goes_on he]; exact hrest⟩

/-- **A session ends**, with what `Kernel.run` gives, whatever the buffer holds
when it starts. -/
theorem exec_run (platform : Platform) (hs : s.depth = 0) :
    ∃ held, exec (run platform) s =
      some ((), s.after held (Kernel.run platform s.volume s.console.pending)) := by
  obtain ⟨held, hloop⟩ := exec_loop (s := s.does [.print banner]) (!platform.echoesInput) hs rfl rfl
  refine ⟨held, ?_⟩
  rw [run, exec_bind, exec_act, Option.bind_some, exec_bind, hloop]
  simp [Kernel.run, State.does_eq]

end Program

end Kernel

end RamFs
