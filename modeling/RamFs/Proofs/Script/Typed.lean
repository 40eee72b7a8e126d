import RamFs.Proofs.Command.NormalForm
import RamFs.Proofs.Script.Counter
import RamFs.Proofs.Steps

/-!
# RamFs.Proofs.Script.Typed

Running a script is typing its lines.  How many scripts are open shows in a turn
only where a script is refused: with fewer of them open, a line that meets no
refusal leaves the same volume, shows the same and goes on alike
(`execute_same`).  The lines of a script are carried out one level below the
script, so they do what they do when they are typed.
-/

namespace RamFs

/-- Whether a message says that a script was refused. -/
def Message.isRefusal : Message → Bool
  | .scriptRefused _ _ => true
  | _ => false

namespace Shell

variable {v : Volume} {line : Text}

namespace Turn

variable {t u t' u' : Turn}

/-- Whether a script was refused in a turn. -/
def refuses (t : Turn) : Bool := (Action.messages t.actions).any Message.isRefusal

/-- Turns that are the same but for the log. -/
structure Same (t u : Turn) : Prop where
  volume : t.volume = u.volume
  output : Action.output t.actions = Action.output u.actions
  flow : t.flow = u.flow

theorem Same.refl (t : Turn) : Same t t := ⟨rfl, rfl, rfl⟩

theorem Same.trans (a : Same t u) (b : Same u t') : Same t t' :=
  ⟨a.volume.trans b.volume, a.output.trans b.output, a.flow.trans b.flow⟩

theorem Same.symm (a : Same t u) : Same u t := ⟨a.volume.symm, a.output.symm, a.flow.symm⟩

/-- Turns in sequence are the same if their parts are. -/
theorem Same.andThen (a : Same t t') (b : Same u u') : Same (t.andThen u) (t'.andThen u') where
  volume := b.volume
  output := by simp [Turn.andThen, a.output, b.output]
  flow := b.flow

/-- The messages around a script show nothing. -/
theorem same_enclose (t : Turn) (path : Text) (number : Nat) : Same (t.enclose path number) t where
  volume := rfl
  output := by simp [enclose]
  flow := rfl

theorem refuses_andThen (t u : Turn) : (t.andThen u).refuses = (t.refuses || u.refuses) := by
  simp [refuses, andThen]

/-- A script refuses what its lines refuse. -/
theorem refuses_enclose (t : Turn) (path : Text) (number : Nat) :
    (t.enclose path number).refuses = t.refuses := by
  have hstart : (Message.scriptStarted path number).isRefusal = false := rfl
  have hclose : (closing path t.flow).isRefusal = false := by cases t.flow <;> rfl
  simp [refuses, enclose, hstart, hclose]

end Turn

/-! ## Fewer scripts open -/

/-- Two ways to carry out lines that agree where the first refuses no script
agree on several lines if it refuses none there. -/
theorem sequence_same {run other : Volume → Text → Turn}
    (h : ∀ v line, (run v line).refuses = false → (other v line).Same (run v line)) (v : Volume)
    (lines : List Text) (hn : (sequence run v lines).refuses = false) :
    (sequence other v lines).Same (sequence run v lines) := by
  induction lines generalizing v with
  | nil => exact .refl _
  | cons line lines ih => cases hflow : (run v line).flow with
    | shutdown =>
        rw [sequence_cons_shutdown hflow] at hn ⊢
        have s := h v line hn
        rw [sequence_cons_shutdown (s.flow.trans hflow)]
        exact s
    | next =>
        rw [sequence_cons_next hflow] at hn ⊢
        rw [Turn.refuses_andThen, Bool.or_eq_false_iff] at hn
        have s := h v line hn.1
        rw [sequence_cons_next (s.flow.trans hflow), s.volume]
        exact s.andThen (ih _ hn.2)

/-- **Levels show in refusals only**: a line that meets no refusal does the same
with more levels. -/
theorem execute_same {m n : Nat} (hle : m ≤ n) (v : Volume) (line : Text)
    (hn : (execute m v line).refuses = false) : (execute n v line).Same (execute m v line) := by
  -- on the smaller number of levels: at none, a line that runs a script is refused
  induction m generalizing n v line with
  | zero =>
      obtain ⟨path, h⟩ | ⟨t, d⟩ := run_or_direct v line
      · rw [execute_refused h] at hn
        contradiction
      · rw [d.execute_eq, d.execute_eq]
        exact .refl t
  | succ m ih =>
      obtain ⟨path, h⟩ | ⟨t, d⟩ := run_or_direct v line
      · cases n with
        | zero => exact absurd hle (Nat.not_succ_le_zero m)
        | succ n => cases hx : v.executable? path with
          | none =>
              rw [execute_missing h hx, execute_missing h hx]
              exact .refl _
          | some content =>
              rw [execute_script h hx] at hn ⊢
              rw [execute_script h hx]
              rw [Turn.refuses_enclose] at hn
              have s := sequence_same (ih (Nat.le_of_succ_le_succ hle)) v (scriptParts content) hn
              exact (Turn.same_enclose _ path _).trans (s.trans (Turn.same_enclose _ path _).symm)
      · rw [d.execute_eq, d.execute_eq]
        exact .refl t

/-! ## Typing -/

/-- Lines typed one after another, each with no script open, up to the first that
asks for a shutdown, and their turns together. -/
inductive Typed : Volume → List Text → Turn → Prop
  | nothing (v : Volume) : Typed v [] (.quiet v [])
  | last {v : Volume} {line : Text} {lines : List Text} {t : Turn}
      (turn : (Program.execute line).turn 0 v = some t) (flow : t.flow = .shutdown) :
      Typed v (line :: lines) t
  | more {v : Volume} {line : Text} {lines : List Text} {t u : Turn}
      (turn : (Program.execute line).turn 0 v = some t) (flow : t.flow = .next)
      (later : Typed t.volume lines u) : Typed v (line :: lines) (t.andThen u)

/-- Lines that are typed one after another are the sequence of their turns. -/
theorem typed_sequence (v : Volume) (lines : List Text) :
    Typed v lines (sequence (execute maxScriptDepth) v lines) :=
  sequence_induct (P := fun v line t => (Program.execute line).turn 0 v = some t)
    (fun v line => Program.turn_execute (Nat.zero_le _) v line) .nothing
    (fun _ _ _ _ turn flow => .last turn flow)
    (fun _ _ _ _ _ turn flow later => .more turn flow later) v lines

/-- A line that runs the script at a path without blanks is read as such. -/
theorem parse_run {path : Text} (hne : path ≠ []) (h : ∀ c ∈ path, Text.isBlank c = false) :
    Command.parse ("run ".toList ++ path) = .ok (some (.run path)) := by
  have hc : (Command.run path).Typeable := .of_path ⟨hne, h⟩ rfl rfl nofun nofun
  have hline : (Command.run path).render = "run ".toList ++ path :=
    congrArg ("run ".toList ++ ·) (List.append_nil path)
  rw [← hline, Command.parse_render hc]

/-- **Scripts are typed lines.**  With fewer scripts open a line does the same
unless a script is refused; so a script that runs into no refusal does what its
lines do when they are typed. -/
theorem script_is_typed (v : Volume) :
    (∀ line d₁ d₂, d₁ ≤ d₂ → d₂ ≤ maxScriptDepth → ∃ t₁ t₂,
      (Program.execute line).turn d₁ v = some t₁ ∧ (Program.execute line).turn d₂ v = some t₂ ∧
        (t₂.refuses = false → t₁.Same t₂)) ∧
    (∀ path h line, v.locate path = .ok h → (v.node h).isFile = true →
      (v.node h).permissions.canExecute = true → ∃ t u,
        (Program.carryOut line (.run path)).turn 0 v = some t ∧
          Typed v (scriptParts (v.node h).content) u ∧ (t.refuses = false → t.Same u)) ∧
    ∀ path, path ≠ [] → (∀ c ∈ path, Text.isBlank c = false) →
      Program.execute ("run ".toList ++ path) =
        Program.carryOut ("run ".toList ++ path) (.run path) := by
  refine ⟨?levels, ?script, ?command⟩
  case levels =>
    intro line d₁ d₂ hle hd
    exact ⟨_, _, Program.turn_execute (Nat.le_trans hle hd) v line, Program.turn_execute hd v line,
      execute_same (Nat.sub_le_sub_left hle _) v line⟩
  case script =>
    intro path h line hl hf hx
    have hscript : v.executable? path = some (v.node h).content := by
      simp [Volume.executable?, hl, hf, hx]
    have hlevels : 0 + (3 + 1) = maxScriptDepth := rfl
    refine ⟨_, _, Program.turn_run hlevels hscript line, typed_sequence v _, fun hn => ?_⟩
    rw [Turn.refuses_enclose] at hn
    exact (Turn.same_enclose _ path _).trans
      (sequence_same (execute_same (by decide)) v _ hn).symm
  case command => exact fun path hne h => Program.execute_of_parse (parse_run hne h)

/-- What makes two scripts, `s` and `t`.  The first runs the second one, deletes
itself, and meets the errors that follow. -/
def selfDeletingScript : List Op :=
  [.touch "t".toList, .write "t".toList "mkdir d;cd d;pwd".toList, .chmod "t".toList 7,
    .touch "s".toList, .write "s".toList "run t; rm /s; run t; run s; cat /s".toList,
    .chmod "s".toList 7]

/-- A script that deletes itself, with no script open, with two open, and typed. -/
theorem script_is_typed_while_it_deletes_itself :
    ∃ fresh, Volume.format {} = .ok fresh ∧ ∃ v, v = fresh.runAll selfDeletingScript ∧
      (∃ t₁ t₂, (Program.execute "run s".toList).turn 0 v = some t₁ ∧
        (Program.execute "run s".toList).turn 2 v = some t₂ ∧ t₂.refuses = false ∧ t₁.Same t₂) ∧
      ∃ h t u, v.locate "s".toList = .ok h ∧
        (Program.execute "run s".toList).turn 0 v = some t ∧ t.refuses = false ∧
        Typed v (scriptParts (v.node h).content) u ∧ t.Same u := by
  have hfacts : ∃ fresh, Volume.format {} = .ok fresh ∧
      ((fresh.runAll selfDeletingScript).executable? "s".toList).isSome = true ∧
      (execute 2 (fresh.runAll selfDeletingScript) "run s".toList).refuses = false ∧
      (execute 4 (fresh.runAll selfDeletingScript) "run s".toList).refuses = false :=
    ⟨_, rfl, by decide +kernel⟩
  obtain ⟨fresh, hfresh, hsome, hn₂, hn₄⟩ := hfacts
  refine ⟨fresh, hfresh, _, rfl, ?levels, ?script⟩
  case levels =>
    obtain ⟨t₁, t₂, h₁, h₂, hs⟩ :=
      (script_is_typed (fresh.runAll selfDeletingScript)).1 "run s".toList 0 2
        (by decide) (by decide)
    have hr : t₂.refuses = false := by
      rw [Program.turn_execute (by decide)] at h₂
      rw [← Option.some.inj h₂]
      exact hn₂
    exact ⟨t₁, t₂, h₁, h₂, hr, hs hr⟩
  case script =>
    obtain ⟨content, hx⟩ := Option.isSome_iff_exists.mp hsome
    obtain ⟨h, hl, hf, hcan, -⟩ := Volume.executable?_eq_some hx
    obtain ⟨-, hscript, hcommand⟩ := script_is_typed (fresh.runAll selfDeletingScript)
    obtain ⟨t, u, ht, hu, hs⟩ := hscript _ h "run s".toList hl hf hcan
    have hexec : Program.execute "run s".toList = .carryOut "run s".toList (.run "s".toList) :=
      hcommand "s".toList (by decide) (Text.not_isBlank_of_all (by decide))
    rw [← hexec] at ht
    have hr : t.refuses = false := by
      rw [Program.turn_execute (Nat.zero_le _)] at ht
      rw [← Option.some.inj ht]
      exact hn₄
    exact ⟨h, t, u, hl, ht, hr, hu, hs hr⟩

end Shell

end RamFs
