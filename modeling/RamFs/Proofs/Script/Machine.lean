import RamFs.Proofs.Script.Counter

/-!
# RamFs.Proofs.Script.Machine

Carrying out lines step by step.  The machine holds the lines that are left of
the innermost script and a stack of the scripts that the call has opened, each
with the lines that are left of what it was run from.  A step carries out a line
that runs no script, opens a script, or leaves one.

`runs_execute` shows that a line takes the machine from any stack to the same
stack, with the turn that `execute` gives; so what holds between two steps of the
machine holds while a line is being carried out.
-/

namespace RamFs

namespace Shell

/-- A script that a call has opened, and the lines left of what it was run from. -/
structure Frame where
  path : Text
  rest : List Text

/-- What the machine holds. -/
structure Config where
  volume : Volume
  lines : List Text
  opened : List Frame
  flow : Flow

/-- The start of a call with one line. -/
def Config.call (v : Volume) (line : Text) : Config := ⟨v, [line], [], .next⟩

/-! ## Steps -/

/-- What the machine does next, when `around` scripts are open around the call. -/
inductive Step (around : Nat) : Config → List Action → Config → Prop
  /-- A line that runs no script. -/
  | direct {v : Volume} {line : Text} {lines : List Text} {opened : List Frame} {t : Turn}
      (turn : Direct v line t) :
      Step around ⟨v, line :: lines, opened, .next⟩ t.actions ⟨t.volume, lines, opened, t.flow⟩
  /-- A line that runs one script too many. -/
  | refuse {v : Volume} {line path : Text} {lines : List Text} {opened : List Frame}
      (parsed : Command.parse line = .ok (some (.run path)))
      (full : around + opened.length = maxScriptDepth) :
      Step around ⟨v, line :: lines, opened, .next⟩ (Turn.refused v line path).actions
        ⟨v, lines, opened, .next⟩
  /-- A line that runs what is no script. -/
  | miss {v : Volume} {line path : Text} {lines : List Text} {opened : List Frame}
      (parsed : Command.parse line = .ok (some (.run path)))
      (room : around + opened.length < maxScriptDepth) (missing : v.executable? path = none) :
      Step around ⟨v, line :: lines, opened, .next⟩
        (Turn.failed v line (.notExecutable path)).actions ⟨v, lines, opened, .next⟩
  /-- A line that runs a script. -/
  | start {v : Volume} {line path : Text} {lines : List Text} {opened : List Frame}
      {content : Bytes} (parsed : Command.parse line = .ok (some (.run path)))
      (room : around + opened.length < maxScriptDepth)
      (script : v.executable? path = some content) :
      Step around ⟨v, line :: lines, opened, .next⟩
        [.log (.scriptStarted path (around + opened.length + 1))]
        ⟨v, scriptParts content, ⟨path, lines⟩ :: opened, .next⟩
  /-- A script that was carried out to its end. -/
  | finish {v : Volume} {frame : Frame} {opened : List Frame} :
      Step around ⟨v, [], frame :: opened, .next⟩ [.log (.scriptDone frame.path)]
        ⟨v, frame.rest, opened, .next⟩
  /-- A script that is left because of a shutdown. -/
  | stop {v : Volume} {lines : List Text} {frame : Frame} {opened : List Frame} :
      Step around ⟨v, lines, frame :: opened, .shutdown⟩ [.log (.scriptStopped frame.path)]
        ⟨v, frame.rest, opened, .shutdown⟩

/-- Steps one after another, and what they do together. -/
inductive Runs (around : Nat) : Config → List Action → Config → Prop
  | refl (c : Config) : Runs around c [] c
  | head {c d e : Config} {as bs : List Action} (step : Step around c as d)
      (rest : Runs around d bs e) : Runs around c (as ++ bs) e

variable {around : Nat} {v : Volume} {line path : Text} {content : Bytes} {c d e : Config}
  {as bs : List Action}

theorem Runs.single (step : Step around c as d) : Runs around c as d := by
  simpa using Runs.head step (.refl d)

/-- A run and one that begins where it ends. -/
theorem Runs.trans (first : Runs around c as d) (second : Runs around d bs e) :
    Runs around c (as ++ bs) e := by
  induction first with
  | refl => exact second
  | head step _ ih =>
      rw [List.append_assoc]
      exact .head step (ih second)

/-! ## One way only -/

/-- A line with a direct turn runs no script. -/
theorem Direct.parse_ne_run {t : Turn} (turn : Direct v line t) :
    Command.parse line ≠ .ok (some (.run path)) := by
  intro h
  cases turn with
  | unread parsed | blank parsed => simp [parsed] at h
  | print parsed planned | perform parsed planned | shutdown parsed planned =>
      rw [parsed] at h
      cases h
      contradiction

/-- A line has one direct turn at most. -/
theorem Direct.unique {t u : Turn} (ht : Direct v line t) (hu : Direct v line u) : t = u := by
  rw [← ht.execute_eq 0, ← hu.execute_eq 0]

/-- There is never more than one step to take. -/
theorem Step.deterministic (first : Step around c as d) (second : Step around c bs e) :
    as = bs ∧ d = e := by
  cases first with
  | direct turn => cases second with
    | direct turn' =>
        cases turn.unique turn'
        exact ⟨rfl, rfl⟩
    | refuse parsed | miss parsed | start parsed => exact absurd parsed turn.parse_ne_run
  | refuse parsed | miss parsed | start parsed => cases second with
    | direct turn => exact absurd parsed turn.parse_ne_run
    | refuse | miss | start => grind
  | finish => cases second with
    | finish => exact ⟨rfl, rfl⟩
  | stop => cases second with
    | stop => exact ⟨rfl, rfl⟩

/-- A call is over when no line and no script is left. -/
theorem not_step_over {flow : Flow} : ¬ Step around ⟨v, [], [], flow⟩ as d := nofun

/-- A run that is over goes on from wherever a run from its start comes to. -/
theorem Runs.rest (first : Runs around c as d) (whole : Runs around c bs e)
    (ended : ∀ cs f, ¬ Step around e cs f) : ∃ rest, bs = as ++ rest ∧ Runs around d rest e := by
  induction first generalizing bs with
  | refl => exact ⟨bs, rfl, whole⟩
  | head step _ ih => cases whole with
    | refl => exact absurd step (ended _ _)
    | head step' whole' =>
        obtain ⟨rfl, rfl⟩ := step.deterministic step'
        obtain ⟨rest, rfl, hrest⟩ := ih whole'
        exact ⟨rest, (List.append_assoc ..).symm, hrest⟩

/-! ## The depth -/

/-- The machine never opens more scripts than allowed. -/
theorem Step.depth_le (step : Step around c as d) (h : around + c.opened.length ≤ maxScriptDepth) :
    around + d.opened.length ≤ maxScriptDepth := by
  cases step with
  | start parsed room script => exact room
  | finish | stop => exact Nat.le_of_succ_le h
  | direct | refuse | miss => exact h

/-- The scripts that are open never get past the limit. -/
theorem Runs.depth_le (runs : Runs around c as d) (h : around + c.opened.length ≤ maxScriptDepth) :
    around + d.opened.length ≤ maxScriptDepth := by
  induction runs with
  | refl => exact h
  | head step _ ih => exact ih (step.depth_le h)

/-! ## Whole lines -/

/-- A script is opened, its lines are carried out, and it is left. -/
theorem Runs.enclose {lines : List Text} {opened : List Frame} {t : Turn} {rest : List Text}
    (parsed : Command.parse line = .ok (some (.run path)))
    (room : around + opened.length < maxScriptDepth) (script : v.executable? path = some content)
    (body : Runs around ⟨v, scriptParts content, ⟨path, lines⟩ :: opened, .next⟩ t.actions
      ⟨t.volume, rest, ⟨path, lines⟩ :: opened, t.flow⟩) (ended : t.flow = .next → rest = []) :
    Runs around ⟨v, line :: lines, opened, .next⟩
      (t.enclose path (around + opened.length + 1)).actions ⟨t.volume, lines, opened, t.flow⟩ := by
  have hclose : Step around ⟨t.volume, rest, ⟨path, lines⟩ :: opened, t.flow⟩
      [.log (closing path t.flow)] ⟨t.volume, lines, opened, t.flow⟩ := by
    cases hflow : t.flow with
    | next =>
        rw [ended hflow]
        exact .finish
    | shutdown => exact .stop
  have hruns := Runs.head (Step.start parsed room script) (body.trans (.single hclose))
  simpa [Turn.enclose] using hruns

/-- The lines of a script, if each of them takes the machine through its turn. -/
theorem runs_sequence {run : Volume → Text → Turn} {opened : List Frame}
    (h : ∀ v line lines, Runs around ⟨v, line :: lines, opened, .next⟩ (run v line).actions
      ⟨(run v line).volume, lines, opened, (run v line).flow⟩) (v : Volume) (lines : List Text) :
    ∃ rest, Runs around ⟨v, lines, opened, .next⟩ (sequence run v lines).actions
        ⟨(sequence run v lines).volume, rest, opened, (sequence run v lines).flow⟩ ∧
      ((sequence run v lines).flow = .next → rest = []) := by
  induction lines generalizing v with
  | nil => exact ⟨[], .refl _, fun _ => rfl⟩
  | cons line lines ih =>
      have hline := h v line lines
      cases hflow : (run v line).flow with
      | shutdown =>
          rw [sequence_cons_shutdown hflow]
          refine ⟨lines, hline, fun hnext => ?_⟩
          rw [hflow] at hnext
          contradiction
      | next =>
          obtain ⟨rest, hrest, hend⟩ := ih (run v line).volume
          rw [hflow] at hline
          rw [sequence_cons_next hflow]
          exact ⟨rest, hline.trans hrest, hend⟩

/-- **The machine carries out lines**: with as many scripts open as leave `levels`
more, a line goes through its turn and leaves the stack and the lines after it. -/
theorem runs_execute {levels : Nat} {opened : List Frame}
    (h : around + opened.length + levels = maxScriptDepth) (v : Volume) (line : Text)
    (lines : List Text) :
    Runs around ⟨v, line :: lines, opened, .next⟩ (execute levels v line).actions
      ⟨(execute levels v line).volume, lines, opened, (execute levels v line).flow⟩ := by
  induction levels generalizing v line lines opened with
  | zero =>
      obtain ⟨path, parsed⟩ | ⟨t, turn⟩ := run_or_direct v line
      · rw [execute_refused parsed]
        exact .single (.refuse parsed h)
      · rw [turn.execute_eq]
        exact .single (.direct turn)
  | succ levels ih =>
      have room : around + opened.length < maxScriptDepth := by omega
      obtain ⟨path, parsed⟩ | ⟨t, turn⟩ := run_or_direct v line
      · cases script : v.executable? path with
        | none =>
            rw [execute_missing parsed script]
            exact .single (.miss parsed room script)
        | some content =>
            have hnumber : maxScriptDepth - levels = around + opened.length + 1 := by omega
            have hlevels : around + (⟨path, lines⟩ :: opened).length + levels = maxScriptDepth := by
              rw [List.length_cons]
              omega
            obtain ⟨rest, body, hend⟩ := runs_sequence (ih hlevels) v (scriptParts content)
            rw [execute_script parsed script, hnumber]
            exact body.enclose parsed room script hend
      · rw [turn.execute_eq]
        exact .single (.direct turn)

end Shell

end RamFs
