import Mathlib.Algebra.Group.Nat.Defs
import RamFs.Proofs.Content
import RamFs.Proofs.Script.Counter

/-!
# RamFs.Proofs.Script.Nesting

How scripts nest.  `Message.track` reads a log with a stack of the scripts that
are open: a script is pushed when it starts and must be the top one when it is
left, and the depth in a message must be the height of the stack.  A line leaves
the stack as it was, at any depth (`execute_nests`).

A script has at most one line more than its content has octets, so the levels
bound the scripts that one line starts (`execute_starts_le`).
-/

namespace RamFs

/-! ## Reading a log -/

namespace Message

/-- Reads a message while the scripts `opened` are open, the last one first, and
`depth` others around them.  It gives the scripts that are open then, or nothing
if the message is out of place. -/
def track (depth : Nat) (opened : List Text) : Message → Option (List Text)
  | .scriptStarted path number =>
    if number = depth + opened.length + 1 ∧ number ≤ Shell.maxScriptDepth then some (path :: opened)
    else none
  | .scriptRefused _ number =>
    if number = depth + opened.length ∧ number = Shell.maxScriptDepth then some opened else none
  | .scriptDone path | .scriptStopped path =>
    if opened.head? = some path then some opened.tail else none
  | _ => some opened

/-- Whether a message says that a script starts. -/
def isStart : Message → Bool
  | .scriptStarted _ _ => true
  | _ => false

/-- A message about something else leaves the open scripts as they are. -/
theorem track_of_not_isScript {m : Message} (h : m.isScript = false) (depth : Nat)
    (opened : List Text) : track depth opened m = some opened := by
  cases m with
  | scriptRefused | scriptStarted | scriptDone | scriptStopped => contradiction
  | _ => rfl

theorem isStart_of_not_isScript {m : Message} (h : m.isScript = false) : m.isStart = false := by
  cases m with
  | scriptRefused | scriptStarted | scriptDone | scriptStopped => contradiction
  | _ => rfl

end Message

/-- Messages that nest: every one is in its place, and all scripts that start are
left again. -/
def WellNested (depth : Nat) (ms : List Message) : Prop :=
  ms.foldlM (Message.track depth) [] = some []

/-! ## Lines of a script -/

/-- Splitting a list takes a separator for every further piece. -/
theorem length_splitOnP_le {α : Type} (p : α → Bool) (xs : List α) :
    (xs.splitOnP p).length ≤ xs.length + 1 := by
  induction xs with
  | nil => simp
  | cons x xs ih =>
      rw [List.splitOnP_cons_eq_if_modifyHead]
      split
      · simpa using ih
      · rw [List.length_modifyHead]
        exact Nat.le_succ_of_le ih

namespace Shell

variable {limits : Limits} {v : Volume} {path : Text} {content : Bytes}

/-- The most lines that a script of a volume has. -/
def maxScriptLines (limits : Limits) : Nat := limits.maxContentLen.toNat + 1

/-- No script of a reachable volume has more lines than the bound. -/
theorem length_scriptParts_le (hr : v.Reachable limits) (hx : v.executable? path = some content) :
    (scriptParts content).length ≤ maxScriptLines limits := by
  obtain ⟨h, -, -, -, rfl⟩ := Volume.executable?_eq_some hx
  obtain ⟨t, hw, hc⟩ := hr.contentFits h
  rw [hr.limits_eq] at hw
  have hparts := length_splitOnP_le (fun c => c == '\n' || c == ';') t
  have ht := Text.length_le_width t
  rw [scriptParts, hc, Text.decode_encode, List.length_map, maxScriptLines]
  omega

/-! ## Nesting -/

/-- Messages that leave the scripts open that are open before them, when these are
`height` scripts, and that nest among themselves. -/
def Neutral (height : Nat) (ms : List Message) : Prop :=
  ∀ depth opened, depth + opened.length = height →
    ms.foldlM (Message.track depth) opened = some opened

/-- Messages that are not about scripts are neutral. -/
theorem neutral_of_silent {ms : List Message} (h : ∀ m ∈ ms, m.isScript = false) (height : Nat) :
    Neutral height ms := by
  intro depth opened _
  induction ms with
  | nil => rfl
  | cons m ms ih =>
      rw [List.foldlM_cons, Message.track_of_not_isScript (h m List.mem_cons_self)]
      exact ih fun x hx => h x (List.mem_cons_of_mem m hx)

/-- Neutral messages after neutral ones. -/
theorem Neutral.append {height : Nat} {ms ns : List Message} (hm : Neutral height ms)
    (hn : Neutral height ns) : Neutral height (ms ++ ns) := by
  intro depth opened h
  rw [List.foldlM_append, hm depth opened h]
  exact hn depth opened h

/-- A script that starts and is left nests if what it does nests one level down. -/
theorem Neutral.enclose {height : Nat} {ms : List Message} (hm : Neutral (height + 1) ms)
    (hroom : height < maxScriptDepth) (path : Text) (flow : Flow) :
    Neutral height (.scriptStarted path (height + 1) :: ms ++ [closing path flow]) := by
  intro depth opened h
  have hstart : Message.track depth opened (.scriptStarted path (height + 1)) =
      some (path :: opened) := if_pos ⟨by omega, hroom⟩
  have hbody := hm depth (path :: opened) (by rw [List.length_cons]; omega)
  have hclose : Message.track depth (path :: opened) (closing path flow) = some opened := by
    cases flow <;> exact if_pos rfl
  rw [List.cons_append, List.foldlM_cons, hstart, Option.bind_eq_bind, Option.bind_some,
    List.foldlM_append, hbody, Option.bind_eq_bind, Option.bind_some, List.foldlM_cons, hclose]
  rfl

/-- **Scripts nest**: with `height` scripts open, a line leaves them open and
starts none above the limit. -/
theorem execute_nests {height levels : Nat} (h : height + levels = maxScriptDepth) (v : Volume)
    (line : Text) : Neutral height (Action.messages (execute levels v line).actions) := by
  revert height
  -- lines and scripts are neutral alike, each at the height that its levels leave
  refine execute_induct
    (P := fun n _ t => ∀ {height}, height + n = maxScriptDepth →
      Neutral height (Action.messages t.actions))
    (Q := fun n _ _ t => ∀ {height}, height + n = maxScriptDepth →
      Neutral height (Action.messages t.actions))
    ?plain ?refused ?script ?none ?last ?more levels v line
  case plain => exact fun n v t ht height _ => neutral_of_silent ht.silent height
  case refused =>
    intro v line path height h depth opened ho
    have hfull : Message.track depth opened (.scriptRefused path maxScriptDepth) = some opened :=
      if_pos ⟨by omega, rfl⟩
    rw [Turn.refused, Action.messages_log, Action.messages_printLine, List.foldlM_cons, hfull]
    rfl
  case script =>
    intro n v path content t _ ht height h
    have hnumber : maxScriptDepth - n = height + 1 := by omega
    rw [Turn.enclose, Action.messages_append, Action.messages_log, hnumber]
    exact (ht (by omega)).enclose (by omega) path t.flow
  case none => exact fun n v height _ => neutral_of_silent (by simp [Turn.quiet]) height
  case last => exact fun n v line lines t ht _ => ht
  case more =>
    intro n v line lines t u ht _ hu height h
    rw [Turn.andThen, Action.messages_append]
    exact (ht h).append (hu h)

/-! ## How many scripts start -/

/-- The most scripts that a line starts if `levels` more may be opened and a
script has at most `lines` lines. -/
def maxStarts (lines : Nat) : Nat → Nat
  | 0 => 0
  | levels + 1 => 1 + lines * maxStarts lines levels

/-- The number of scripts that a turn starts. -/
def Turn.starts (t : Turn) : Nat := (Action.messages t.actions).countP Message.isStart

/-- A plain turn starts no script. -/
theorem Turn.Plain.starts_eq {t : Turn} (ht : t.Plain v) : t.starts = 0 :=
  List.countP_eq_zero.mpr fun m hm => by simp [Message.isStart_of_not_isScript (ht.silent m hm)]

/-- A plain turn leaves a reachable volume. -/
theorem Turn.Plain.reachable {t : Turn} (ht : t.Plain v) (hr : v.Reachable limits) :
    t.volume.Reachable limits := by
  obtain he | ⟨op, he⟩ := ht.volume
  · rw [he]
    exact hr
  · rw [he]
    exact hr.run op

/-- A script starts itself and what its lines start. -/
theorem starts_enclose (path : Text) (number : Nat) (t : Turn) :
    (t.enclose path number).starts = t.starts + 1 := by
  have hstart : (Message.scriptStarted path number).isStart = true := rfl
  have hclose : (closing path t.flow).isStart = false := by cases t.flow <;> rfl
  simp [Turn.starts, Turn.enclose, hstart, hclose]

theorem starts_andThen (t u : Turn) : (t.andThen u).starts = t.starts + u.starts := by
  simp [Turn.starts, Turn.andThen]

/-- **Few scripts start**: a line keeps a volume reachable, and its scripts are
bounded by the levels and the lines that a script can have. -/
theorem execute_starts_le (levels : Nat) (hr : v.Reachable limits) (line : Text) :
    (execute levels v line).volume.Reachable limits ∧
      (execute levels v line).starts ≤ maxStarts (maxScriptLines limits) levels := by
  revert hr
  -- the bound on the lines of a script is one on reachable volumes, so both go together
  refine execute_induct
    (P := fun n v t => v.Reachable limits →
      t.volume.Reachable limits ∧ t.starts ≤ maxStarts (maxScriptLines limits) n)
    (Q := fun n v lines t => v.Reachable limits →
      t.volume.Reachable limits ∧ t.starts ≤ lines.length * maxStarts (maxScriptLines limits) n)
    ?plain ?refused ?script ?none ?last ?more levels v line
  case plain =>
    exact fun n v t ht hr => ⟨ht.reachable hr, by rw [ht.starts_eq]; exact Nat.zero_le _⟩
  case refused => exact fun v line path hr => ⟨hr, Nat.le_refl 0⟩
  case script =>
    intro n v path content t hx ht hr
    obtain ⟨hrt, hle⟩ := ht hr
    have hlines := Nat.mul_le_mul_right (maxStarts (maxScriptLines limits) n)
      (length_scriptParts_le hr hx)
    refine ⟨hrt, ?_⟩
    rw [starts_enclose, maxStarts]
    omega
  case none => exact fun n v hr => ⟨hr, Nat.zero_le _⟩
  case last =>
    intro n v line lines t ht _ hr
    obtain ⟨hrt, hle⟩ := ht hr
    refine ⟨hrt, ?_⟩
    rw [List.length_cons, Nat.succ_mul]
    omega
  case more =>
    intro n v line lines t u ht _ hu hr
    obtain ⟨hrt, hle⟩ := ht hr
    obtain ⟨hru, hlater⟩ := hu hrt
    refine ⟨hru, ?_⟩
    rw [starts_andThen, List.length_cons, Nat.succ_mul]
    omega

/-- The bound for all the levels there are, written out. -/
theorem maxStarts_maxScriptDepth (lines : Nat) :
    maxStarts lines maxScriptDepth = 1 + lines + lines ^ 2 + lines ^ 3 := by
  simp only [maxStarts, maxScriptDepth]
  grind

/-! ## Carrying out a line -/

/-- **Scripts end**: with a count of open scripts within the limit, the program of
a line ends, whatever the scripts of the volume do, and leaves the count as it
was.  The scripts that it starts nest and, if none was open, are few. -/
theorem execute_ends_and_nests (hr : v.Reachable limits) {depth : Nat}
    (hd : depth ≤ maxScriptDepth) (line : Text) (log : List Action) :
    ∃ t, execute (maxScriptDepth - depth) v line = t ∧
      (Program.execute line).exec ⟨v, depth, log⟩ =
        some (t.flow, ⟨t.volume, depth, log ++ t.actions⟩) ∧
      WellNested depth (Action.messages t.actions) ∧
      (depth = 0 → t.starts ≤ 1 + maxScriptLines limits + maxScriptLines limits ^ 2 +
        maxScriptLines limits ^ 3) := by
  have hlevels : depth + (maxScriptDepth - depth) = maxScriptDepth := Nat.add_sub_of_le hd
  refine ⟨_, rfl, Program.exec_execute (s := ⟨v, depth, log⟩) hlevels line,
    execute_nests hlevels v line depth [] rfl, fun h0 => ?_⟩
  subst h0
  rw [← maxStarts_maxScriptDepth]
  exact (execute_starts_le maxScriptDepth hr line).2

/-- What makes a script that runs itself twice. -/
def doublingScript : List Op :=
  [.touch "s".toList, .write "s".toList "run s;run s".toList, .chmod "s".toList 7]

/-- Of a script that runs itself twice fifteen start, on four levels, and those
below are refused. -/
theorem execute_ends_and_nests_when_doubling :
    ∃ fresh, Volume.format {} = .ok fresh ∧ ∃ v, v = fresh.runAll doublingScript ∧
      v.Reachable {} ∧ 0 ≤ maxScriptDepth ∧
      ∃ t, execute maxScriptDepth v "run s".toList = t ∧
        (Program.execute "run s".toList).exec ⟨v, 0, []⟩ =
          some (t.flow, ⟨t.volume, 0, t.actions⟩) ∧
        WellNested 0 (Action.messages t.actions) ∧
        t.starts = 15 ∧ t.starts ≤ 1 + 128 + 128 ^ 2 + 128 ^ 3 := by
  have hfacts : ∃ fresh, Volume.format {} = .ok fresh ∧
      (execute maxScriptDepth (fresh.runAll doublingScript) "run s".toList).starts = 15 :=
    ⟨_, rfl, by decide +kernel⟩
  obtain ⟨fresh, hfresh, hstarts⟩ := hfacts
  have hr : (fresh.runAll doublingScript).Reachable {} := ⟨fresh, hfresh, _, rfl⟩
  obtain ⟨t, he, hends, hnests, hfew⟩ :=
    execute_ends_and_nests hr (Nat.zero_le _) "run s".toList []
  refine ⟨fresh, hfresh, _, rfl, hr, Nat.zero_le _, t, he, hends, hnests, ?_, hfew rfl⟩
  rw [← he]
  exact hstarts

end Shell

end RamFs
