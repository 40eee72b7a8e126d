import RamFs.Proofs.Failure
import RamFs.Proofs.Script.Shutdown

/-!
# RamFs.Proofs.Script.Account

The log accounts for every change.  `Trace` is a run of the machine with the commands
that are dispatched on the way, each with the volume that it finds; there is never more
than one step to take, so the commands of a call are a matter of fact.  `Accounts`
compares them with what is logged and with what has become of the volume.  It holds of
every step (`Step.accounts`) and of runs one after another (`Accounts.append`), so it
holds of every call, whatever scripts it opens (`log_accounts_for_changes`).
-/

namespace RamFs

/-- Whether a command is one of those that the log keeps a record of. -/
def Command.changes : Command → Bool
  | .mkdir _ _ | .touch _ | .touchReadOnly _ | .rm _ | .rmdir _ | .write _ _ | .chmod _ _ => true
  | .help | .echo _ | .ls _ _ | .cd _ | .pwd | .cat _ | .stat _ | .run _ | .mem | .shutdown => false

namespace Shell

open RamFs.Action (texts)

variable {around : Nat} {u v w : Volume} {line : Text} {c d e : Config} {as bs : List Action}

/-! ## Dispatched commands -/

/-- A command that is carried out and the volume that it finds. -/
structure Dispatch where
  volume : Volume
  command : Command

/-- The record that is due for a command: its name, its path and how it goes on the
volume that it finds. -/
def Dispatch.record? (x : Dispatch) : Option Message :=
  match x.command with
  | .mkdir path false => some (.performed "mkdir".toList path (failure? (x.volume.mkdir path)))
  | .mkdir path true =>
    some (.performed "mkdir -p".toList path (failure? (x.volume.makePath path).1))
  | .touch path => some (.performed "touch".toList path (failure? (x.volume.touch path)))
  | .touchReadOnly path =>
    some (.performed "touchro".toList path (failure? (x.volume.touchReadOnly path)))
  | .rm path => some (.performed "rm".toList path (failure? (x.volume.rm path)))
  | .rmdir path => some (.performed "rmdir".toList path (failure? (x.volume.rmdir path)))
  | .write path text => some (.performed "write".toList path (failure? (x.volume.write path text)))
  | .chmod path mode => some (.performed "chmod".toList path (failure? (x.volume.chmod path mode)))
  | _ => none

/-- A command that moves the cursor to a directory, and succeeds. -/
def Dispatch.Enters (x : Dispatch) : Prop :=
  ∃ path w, x.command = .cd path ∧ x.volume.cd path = .ok w

/-- The command that the machine is about to carry out, if its next line is one. -/
def Config.dispatched (c : Config) : List Dispatch :=
  match c.flow, c.lines with
  | .next, line :: _ =>
    match Command.parse line with
    | .ok (some command) => [⟨c.volume, command⟩]
    | _ => []
  | _, _ => []

/-- Steps one after another, the commands that they dispatch, and what they do. -/
inductive Trace (around : Nat) : Config → List Dispatch → List Action → Config → Prop
  | refl (c : Config) : Trace around c [] [] c
  | head {c d e : Config} {xs : List Dispatch} {as bs : List Action} (step : Step around c as d)
      (rest : Trace around d xs bs e) : Trace around c (c.dispatched ++ xs) (as ++ bs) e

/-- Every run dispatches some commands. -/
theorem Runs.exists_trace (runs : Runs around c as d) : ∃ xs, Trace around c xs as d := by
  induction runs with
  | refl c => exact ⟨[], .refl c⟩
  | head step _ ih =>
      obtain ⟨xs, rest⟩ := ih
      exact ⟨_, .head step rest⟩

/-! ## Words of the log -/

/-- How every record of a change begins. -/
def recordMark : Text := "[fs] ".toList

/-- How every record of a change that succeeded ends. -/
def okMark : Text := ": ok".toList

/-- How every record of a path that was made on the way begins. -/
def pathMark : Text := "[fs] mkdir -p ".toList

/-- The records among the words of the log, in order. -/
def records (as : List Action) : List Text := (texts as).filter recordMark.isPrefixOf

@[simp] theorem records_append (as bs : List Action) :
    records (as ++ bs) = records as ++ records bs := by
  simp [records]

/-- A record of a change that succeeded, or of a path that could not be made to its end
but may have been begun. -/
def TellsOfChange (t : Text) : Prop := okMark <:+ t ∨ (pathMark <+: t ∧ ¬ okMark <:+ t)

instance : DecidablePred TellsOfChange := fun _ => inferInstanceAs (Decidable (_ ∨ _))

/-- A record of a directory that was removed. -/
def TellsOfRemoval (t : Text) : Prop := ∃ path, t = "[fs] rmdir ".toList ++ path ++ okMark

/-- The words of a record, with its failure if there is one. -/
theorem text_performed (operation path : Text) (failure : Option FsError) :
    (Message.performed operation path failure).text =
      recordMark ++ operation ++ [' '] ++ path ++ ": ".toList ++
        (failure.map FsError.message).getD "ok".toList := by
  cases failure <;> rfl

/-- Every record begins with the mark of records. -/
theorem isRecord_performed (operation path : Text) (failure : Option FsError) :
    recordMark <+: (Message.performed operation path failure).text :=
  List.isPrefixOf_iff_prefix.mp rfl

/-- The words of a record of a change that succeeded. -/
theorem text_performed_none (operation path : Text) :
    (Message.performed operation path none).text =
      recordMark ++ operation ++ [' '] ++ path ++ okMark := by
  have hmark : okMark = ": ".toList ++ "ok".toList := by decide
  rw [text_performed, hmark, ← List.append_assoc]
  rfl

/-- Every record of a path that was made on the way begins with its mark. -/
theorem pathMark_isPrefix_performed (path : Text) (failure : Option FsError) :
    pathMark <+: (Message.performed "mkdir -p".toList path failure).text := by
  have hmark : pathMark = recordMark ++ "mkdir -p".toList ++ [' '] := by decide
  rw [text_performed, hmark, List.append_assoc _ path, List.append_assoc _ (path ++ _)]
  exact List.prefix_append _ _

/-! ## What becomes of the volume -/

theorem failure?_ofChange {α : Type} {answer : α → Answer} (r : Except FsError (α × Volume)) :
    failure? (Outcome.ofChange v answer r).1 = failure? r := by
  cases r <;> rfl

theorem failure?_ofEdit (r : Except FsError Volume) :
    failure? (Outcome.ofEdit v r).1 = failure? r := by
  cases r <;> rfl

theorem failure?_map {α β : Type} (f : α → β) (r : Except FsError α) :
    failure? (r.map f) = failure? r := by
  cases r <;> rfl

/-- The operation of a command is recorded as the command is. -/
theorem record?_of_perform {command : Command} {op : Op} (planned : plan command = .perform op) :
    Dispatch.record? ⟨v, command⟩ =
      (Shell.record? op).map fun r => .performed r.1 r.2 (failure? (op.run v).1) := by
  cases command with
  | mkdir path parents =>
    cases parents
    all_goals
      cases planned
      simp [Dispatch.record?, Shell.record?, Op.run, failure?_ofChange, failure?_map]
  | help | echo | run | shutdown => contradiction
  | _ =>
    cases planned
    simp [Dispatch.record?, Shell.record?, Op.run, failure?_ofChange, failure?_ofEdit]

/-- No record is due for a command that only prints. -/
theorem record?_of_print {command : Command} {lines : List Text}
    (planned : plan command = .print lines) : Dispatch.record? ⟨v, command⟩ = none := by
  cases command with
  | help | echo => rfl
  | mkdir p parents => cases parents <;> cases planned
  | _ => cases planned

/-- An operation that makes no path and fails changes nothing. -/
theorem run_eq_of_failed {op : Op} {x : FsError} (hmake : ∀ path, op ≠ .makePath path)
    (hresolve : ∀ path, op ≠ .resolve path true) (e : (op.run v).1 = .error x) :
    (op.run v).2 = v := by
  cases op with
  | mkdir | touch | touchReadOnly | touchWith | write => exact Op.ofChange_eq_error (Prod.ext e rfl)
  | rm | rmdir | cd | chmod => exact Op.ofEdit_eq_error (Prod.ext e rfl)
  | makePath path => exact absurd rfl (hmake path)
  | resolve path create => cases create with
    | true => exact absurd rfl (hresolve path)
    | false => rfl
  | ls | pwd | cat | stat | executable | locate | usage => rfl

/-- The cursor moves only if it is moved to a directory, or a directory is removed. -/
theorem cwd_run (op : Op) : (op.run v).2.cwd = v.cwd ∨
    (∃ path w, op = .cd path ∧ v.cd path = .ok w) ∨
      ∃ path, op = .rmdir path ∧ failure? (op.run v).1 = none := by
  cases op with
  | mkdir | touch | touchReadOnly | touchWith =>
      exact Or.inl (Outcome.ofChange_keeps (P := (·.cwd = v.cwd)) rfl fun _ _ => Volume.cwd_create)
  | makePath path => exact Or.inl (Volume.cwd_descendMaking v _ _)
  | rm path =>
      refine Or.inl (Outcome.ofEdit_keeps (P := (·.cwd = v.cwd)) rfl fun w e => ?_)
      obtain ⟨h, -, -, -, rfl⟩ := Volume.rm_eq_ok e
      exact Volume.cwd_detach v h
  | rmdir path => cases e : v.rmdir path with
    | error x => exact Or.inl (by rw [Op.run, e]; rfl)
    | ok w => exact Or.inr (Or.inr ⟨path, rfl, by rw [Op.run, e]; rfl⟩)
  | cd path => cases e : v.cd path with
    | error x => exact Or.inl (by rw [Op.run, e]; rfl)
    | ok w => exact Or.inr (Or.inl ⟨path, w, rfl, e⟩)
  | write path text =>
      refine Or.inl (Outcome.ofChange_keeps (P := (·.cwd = v.cwd)) rfl fun size w e => ?_)
      obtain ⟨h, -, -, -, -, rfl⟩ := Volume.write_eq_ok e
      exact Volume.cwd_modify v h _
  | chmod path mode =>
      refine Or.inl (Outcome.ofEdit_keeps (P := (·.cwd = v.cwd)) rfl fun w e => ?_)
      obtain ⟨h, -, -, -, -, rfl⟩ := Volume.chmod_eq_ok e
      exact Volume.cwd_modify v h _
  | resolve path create => cases create with
    | true => exact Or.inl (Volume.cwd_descendMaking v _ _)
    | false => exact Or.inl rfl
  | ls | pwd | cat | stat | executable | locate | usage => exact Or.inl rfl

/-! ## Accounts -/

variable {xs ys : List Dispatch}

/-- What can have moved the cursor. -/
def MovesCursor (xs : List Dispatch) (as : List Action) : Prop :=
  (∃ x ∈ xs, x.Enters) ∨ ∃ t ∈ records as, TellsOfRemoval t

/-- What moves the cursor on the way moves it on the longer way. -/
theorem MovesCursor.append (h : MovesCursor xs as ∨ MovesCursor ys bs) :
    MovesCursor (xs ++ ys) (as ++ bs) := by
  simp only [MovesCursor, records_append, List.mem_append] at h ⊢
  grind

/-- What is logged accounts for the commands `xs`, which have made `w` of `v`. -/
structure Accounts (v : Volume) (xs : List Dispatch) (as : List Action) (w : Volume) : Prop where
  due : records as = (xs.filterMap Dispatch.record?).map Message.text
  unchanged : (∀ t ∈ records as, ¬ TellsOfChange t) → w = { v with cwd := w.cwd }
  moved : w.cwd ≠ v.cwd → MovesCursor xs as

/-- Commands that change nothing and have no record. -/
theorem Accounts.of_still (hxs : xs.filterMap Dispatch.record? = []) (has : records as = []) :
    Accounts v xs as v where
  due := by rw [has, hxs, List.map_nil]
  unchanged := fun _ => rfl
  moved := fun h => absurd rfl h

/-- Accounts of commands one after another. -/
theorem Accounts.append (first : Accounts u xs as v) (second : Accounts v ys bs w) :
    Accounts u (xs ++ ys) (as ++ bs) w where
  due := by rw [records_append, first.due, second.due, List.filterMap_append, List.map_append]
  unchanged := by
    intro h
    rw [records_append] at h
    rw [second.unchanged fun t ht => h t (List.mem_append_right _ ht),
      first.unchanged fun t ht => h t (List.mem_append_left _ ht)]
  moved := by
    intro h
    by_cases hv : v.cwd = u.cwd
    · exact .append (Or.inr (second.moved (hv ▸ h)))
    · exact .append (Or.inl (first.moved hv))

/-- The only record that an operation may leave, and when it does. -/
theorem records_perform (op : Op) : records (perform v line op).actions =
    ((Shell.record? op).map fun r =>
      (Message.performed r.1 r.2 (failure? (op.run v).1)).text).toList := by
  rw [records, texts, messages_perform]
  cases Shell.record? op with
  | none => rfl
  | some r => simp [isRecord_performed]

/-- A command that has no record changes nothing but the cursor. -/
theorem run_of_record?_eq_none {command : Command} {op : Op} (planned : plan command = .perform op)
    (h : Shell.record? op = none) : (op.run v).2 = { v with cwd := (op.run v).2.cwd } := by
  cases command with
  | mkdir path parents => cases parents <;> cases planned <;> contradiction
  | cd path =>
      cases planned
      cases e : v.cd path with
      | error x => rw [Op.run, e]; rfl
      | ok w =>
          obtain ⟨dir, -, -, rfl⟩ := Volume.cd_eq_ok e
          rw [Op.run, e]; rfl
  | ls | pwd | cat | stat | mem => cases planned; rfl
  | _ => cases planned <;> contradiction

/-- A command that is recorded and fails, but is not about a path that is made, changes
nothing. -/
theorem run_of_silent {op : Op} {name path : Text} (h : Shell.record? op = some (name, path))
    (silent : ¬ TellsOfChange (Message.performed name path (failure? (op.run v).1)).text) :
    (op.run v).2 = v := by
  cases e : (op.run v).1 with
  | ok a =>
      refine absurd (Or.inl ?_) silent
      rw [e, failure?, text_performed_none]
      exact List.suffix_append _ _
  | error x =>
      refine run_eq_of_failed (fun p hp => ?_) (fun p hp => ?_) e
      · subst hp
        cases h
        have hpath := pathMark_isPrefix_performed path (failure? ((Op.makePath path).run v).1)
        obtain ⟨hok, hfailed⟩ := not_or.mp silent
        exact hfailed ⟨hpath, hok⟩
      · subst hp
        contradiction

/-- Only `cd` is planned as a move of the cursor. -/
theorem plan_eq_cd {command : Command} {path : Text} (h : plan command = .perform (.cd path)) :
    command = .cd path := by
  cases command with
  | cd p => cases h; rfl
  | mkdir p parents => cases parents <;> cases h
  | _ => cases h

/-- The log accounts for a command that is one operation. -/
theorem Accounts.of_perform {command : Command} {op : Op} (planned : plan command = .perform op) :
    Accounts v [⟨v, command⟩] (perform v line op).actions (perform v line op).volume where
  due := by
    rw [records_perform, List.filterMap_cons, record?_of_perform planned]
    cases Shell.record? op <;> rfl
  unchanged := by
    intro silent
    rw [volume_perform]
    cases hrecord : Shell.record? op with
    | none => exact run_of_record?_eq_none planned hrecord
    | some r =>
        rw [records_perform, hrecord] at silent
        rw [run_of_silent hrecord (silent _ (List.mem_singleton_self _))]
  moved := by
    intro hne
    rw [volume_perform] at hne
    obtain hsame | ⟨path, w, rfl, e⟩ | ⟨path, rfl, e⟩ := cwd_run op
    · exact absurd hsame hne
    · exact Or.inl ⟨_, List.mem_singleton_self _, path, w, plan_eq_cd planned, e⟩
    · have htext := text_performed_none "rmdir".toList path
      refine Or.inr ⟨_, ?_, path, htext⟩
      rw [records_perform, e]
      exact List.mem_singleton_self _

/-! ## Steps and runs -/

/-- A line that is read as a command dispatches that command. -/
theorem Config.dispatched_of_parse {command : Command} {lines : List Text} {opened : List Frame}
    (parsed : Command.parse line = .ok (some command)) :
    Config.dispatched ⟨v, line :: lines, opened, .next⟩ = [⟨v, command⟩] := by
  simp only [Config.dispatched, parsed]

/-- The log accounts for every line that runs no script. -/
theorem Direct.accounts {t : Turn} {lines : List Text} {opened : List Frame}
    (turn : Direct v line t) :
    Accounts v (Config.dispatched ⟨v, line :: lines, opened, .next⟩) t.actions t.volume := by
  cases turn with
  | unread parsed | blank parsed =>
      refine .of_still ?_ rfl
      simp only [Config.dispatched, parsed, List.filterMap_nil]
  | print parsed planned =>
      rw [Config.dispatched_of_parse parsed]
      refine .of_still ?_ (by simp [records, Turn.quiet])
      rw [List.filterMap_cons, record?_of_print planned]
      rfl
  | perform parsed planned =>
      rw [Config.dispatched_of_parse parsed]
      exact .of_perform planned
  | shutdown parsed planned =>
      rw [Config.dispatched_of_parse parsed, plan_eq_shutdown planned]
      exact .of_still rfl rfl

/-- **Step lemma**: what a step logs accounts for the command that it carries out. -/
theorem Step.accounts (step : Step around c as d) : Accounts c.volume c.dispatched as d.volume := by
  cases step with
  | direct turn => exact turn.accounts
  | refuse parsed | miss parsed | start parsed =>
      rw [Config.dispatched_of_parse parsed]
      exact .of_still rfl rfl
  | finish | stop => exact .of_still rfl rfl

/-- **Run lemma**: what a run logs accounts for the commands that it carries out. -/
theorem Trace.accounts (trace : Trace around c xs as d) : Accounts c.volume xs as d.volume := by
  induction trace with
  | refl c => exact .of_still rfl rfl
  | head step _ ih => exact step.accounts.append ih

/-- A record is due for the commands that change something, and for no others. -/
theorem isSome_record? (x : Dispatch) : x.record?.isSome = x.command.changes := by
  obtain ⟨v, command⟩ := x
  cases command with
  | mkdir path parents => cases parents <;> rfl
  | _ => rfl

/-- **Account**: the records that a call leaves in the log are those that are due for the
commands it has carried out, in order, one for each command that may change something.  If
none of them tells of a change, all that can differ is the cursor; and the cursor differs
only if a command has moved it to a directory, or a record tells of a removal. -/
theorem log_accounts_for_changes {depth : Nat} (hd : depth ≤ maxScriptDepth) (v : Volume)
    (line : Text) :
    ∃ t : Turn, (Program.execute line).turn depth v = some t ∧
      (∃ xs, Trace depth (.call v line) xs t.actions ⟨t.volume, [], [], t.flow⟩) ∧
      ∀ xs, Trace depth (.call v line) xs t.actions ⟨t.volume, [], [], t.flow⟩ →
        records t.actions = (xs.filterMap Dispatch.record?).map Message.text ∧
        (records t.actions).length = xs.countP (·.command.changes) ∧
        ((∀ s ∈ records t.actions, ¬ TellsOfChange s) →
          t.volume = { v with cwd := t.volume.cwd }) ∧
        (t.volume.cwd ≠ v.cwd →
          (∃ x ∈ xs, x.Enters) ∨ ∃ s ∈ records t.actions, TellsOfRemoval s) := by
  have hlevels : depth + ([] : List Frame).length + (maxScriptDepth - depth) = maxScriptDepth :=
    Nat.add_sub_of_le hd
  refine ⟨_, Program.turn_execute hd v line, (runs_execute hlevels v line []).exists_trace,
    fun xs trace => ?_⟩
  have haccounts := trace.accounts
  refine ⟨haccounts.due, ?_, haccounts.unchanged, haccounts.moved⟩
  rw [haccounts.due, List.length_map, List.length_filterMap_eq_countP]
  simp only [isSome_record?]

/-- What makes a script that fails at every change, but moves the cursor. -/
def idleScript : List Op :=
  [.touch "s".toList,
    .write "s".toList "frob;touch /s;mkdir;cd /etc;write fsinfo x;chmod fsinfo 9;cat gone".toList,
    .chmod "s".toList 7]

/-- The log of the script has three failures, and only the cursor has moved. -/
theorem log_accounts_for_changes_of_an_idle_script :
    ∃ fresh, Volume.format {} = .ok fresh ∧ ∃ v t xs, v = fresh.runAll idleScript ∧
      (Program.execute "run s".toList).turn 0 v = some t ∧
      Trace 0 (.call v "run s".toList) xs t.actions ⟨t.volume, [], [], t.flow⟩ ∧
      records t.actions = ["[fs] touch /s: name already exists".toList,
        "[fs] write fsinfo: permission denied (no write permission)".toList,
        "[fs] chmod fsinfo: permission denied (system entry is protected)".toList] ∧
      xs.countP (·.command.changes) = 3 ∧ t.volume = { v with cwd := t.volume.cwd } ∧
      t.volume.cwd ≠ v.cwd ∧ ∃ x ∈ xs, x.Enters := by
  obtain ⟨fresh, hf, v, hv, hrecords, hcwd⟩ :
      ∃ fresh, Volume.format {} = .ok fresh ∧ ∃ v, v = fresh.runAll idleScript ∧
        records (execute 4 v "run s".toList).actions =
          ["[fs] touch /s: name already exists".toList,
            "[fs] write fsinfo: permission denied (no write permission)".toList,
            "[fs] chmod fsinfo: permission denied (system entry is protected)".toList] ∧
        (execute 4 v "run s".toList).volume.cwd ≠ v.cwd :=
    ⟨_, rfl, _, rfl, by decide +kernel⟩
  have hlevels : 0 ≤ maxScriptDepth := Nat.zero_le _
  obtain ⟨t, hturn, ⟨xs, htrace⟩, haccount⟩ := log_accounts_for_changes hlevels v "run s".toList
  have ht : t = execute 4 v "run s".toList := by
    rw [Program.turn_execute hlevels] at hturn
    exact (Option.some.inj hturn).symm
  rw [← ht] at hrecords hcwd
  obtain ⟨-, hcount, hsame, hmoved⟩ := haccount xs htrace
  have hsilent : ∀ s ∈ records t.actions, ¬ TellsOfChange s := by
    rw [hrecords]
    decide +kernel
  rw [hrecords] at hcount
  refine ⟨fresh, hf, v, t, xs, hv, hturn, htrace, hrecords, hcount.symm, hsame hsilent, hcwd, ?_⟩
  obtain henters | ⟨s, hs, path, rfl⟩ := hmoved hcwd
  · exact henters
  · exact absurd (Or.inl (List.suffix_append _ _)) (hsilent _ hs)

end Shell

end RamFs
