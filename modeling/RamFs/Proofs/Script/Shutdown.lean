import RamFs.Proofs.Script.Machine

/-!
# RamFs.Proofs.Script.Shutdown

A shutdown ends a call at once.  A step of the machine asks for it by a line that
says so and by no other line (`Step.requests_or_goes_on`), and then all that is
left to do is to leave the open scripts (`Step.leaves`).  So a call that ends with
a shutdown has one request in its log, and nothing after it but the messages that
leave the scripts (`shutdown_is_immediate`).
-/

namespace RamFs

namespace Action

/-- The words that actions log, in order. -/
def texts (actions : List Action) : List Text := (messages actions).map Message.text

@[simp] theorem texts_nil : texts [] = [] := rfl

@[simp] theorem texts_append (as bs : List Action) : texts (as ++ bs) = texts as ++ texts bs := by
  simp [texts]

@[simp] theorem texts_log (m : Message) (as : List Action) :
    texts (.log m :: as) = m.text :: texts as := rfl

@[simp] theorem texts_printLine (t : Text) (as : List Action) :
    texts (.printLine t :: as) = texts as := rfl

@[simp] theorem texts_map_printLine (ts : List Text) : texts (ts.map .printLine) = [] := by
  rw [texts, messages_map_printLine, List.map_nil]

end Action

namespace Shell

open RamFs.Action (texts)

variable {around : Nat} {v : Volume} {line : Text} {c d : Config} {as : List Action}

/-- The words by which a shutdown is asked for. -/
def requestText : Text := "[shell] shutdown requested".toList

/-- What is logged when a script is left because of a shutdown. -/
def Frame.stopped (frame : Frame) : Action := .log (.scriptStopped frame.path)

/-! ## Words of the log -/

/-- How a request for a shutdown begins, which is enough to tell it from the other messages. -/
theorem take_requestText : requestText.take 3 = ['[', 's', 'h'] := rfl

/-- No message about a script reads like a request. -/
theorem text_ne_of_isScript {m : Message} (h : m.isScript = true) : m.text ≠ requestText := by
  have htake : m.text.take 3 = ['[', 's', 'c'] := by
    cases m with
    | scriptRefused | scriptStarted | scriptDone | scriptStopped => rfl
    | _ => contradiction
  intro e
  rw [e, take_requestText] at htake
  contradiction

/-- Nor does what is logged of an operation. -/
theorem text_performed_ne (operation path : Text) (failure : Option FsError) :
    (Message.performed operation path failure).text ≠ requestText := by
  have htake : (Message.performed operation path failure).text.take 3 = ['[', 'f', 's'] := rfl
  intro e
  rw [e, take_requestText] at htake
  contradiction

/-- No operation asks for a shutdown. -/
theorem requestText_notMem_perform (op : Op) :
    requestText ∉ texts (perform v line op).actions := by
  rw [texts, messages_perform]
  cases record? op with
  | none => simp
  | some entry => simpa using (text_performed_ne _ _ _).symm

/-- Leaving scripts asks for no shutdown. -/
theorem requestText_notMem_stopped (opened : List Frame) :
    requestText ∉ texts (opened.map Frame.stopped) := by
  induction opened with
  | nil => simp
  | cons frame opened ih =>
      have hne : requestText ≠ (Message.scriptStopped frame.path).text :=
        (text_ne_of_isScript rfl).symm
      simpa [Frame.stopped, hne] using ih

/-! ## Steps -/

/-- A command that is one operation goes on, however it ends. -/
theorem flow_perform (op : Op) : (perform v line op).flow = .next := by
  rw [perform]
  cases (op.run v).1 <;> rfl

/-- Only `shutdown` is planned as a shutdown. -/
theorem plan_eq_shutdown {command : Command} (h : plan command = .shutdown) :
    command = .shutdown := by
  cases command with
  | shutdown => rfl
  | mkdir p parents => cases parents <;> contradiction
  | _ => contradiction

/-- A line that runs no script asks for a shutdown, or it says nothing of one and
goes on. -/
theorem Direct.requests_or_goes_on {t : Turn} (turn : Direct v line t) :
    (Command.parse line = .ok (some .shutdown) ∧ t = ⟨v, [.log .shutdownRequested], .shutdown⟩) ∨
      (t.flow = .next ∧ requestText ∉ texts t.actions) := by
  cases turn with
  | unread | blank | print => exact Or.inr ⟨rfl, by simp [Turn.quiet, Turn.failed]⟩
  | perform parsed planned => exact Or.inr ⟨flow_perform _, requestText_notMem_perform _⟩
  | shutdown parsed planned => exact Or.inl ⟨plan_eq_shutdown planned ▸ parsed, rfl⟩

/-- A step asks for a shutdown, by a line that says so, or it says nothing of one
and the machine goes on. -/
theorem Step.requests_or_goes_on (step : Step around c as d) (h : c.flow = .next) :
    (∃ line lines, c = ⟨d.volume, line :: lines, d.opened, .next⟩ ∧
      Command.parse line = .ok (some .shutdown) ∧ as = [.log .shutdownRequested] ∧
      d = ⟨d.volume, lines, d.opened, .shutdown⟩) ∨
      (d.flow = .next ∧ requestText ∉ texts as) := by
  cases step with
  | direct turn =>
      obtain ⟨parsed, rfl⟩ | ⟨hflow, hn⟩ := turn.requests_or_goes_on
      · exact Or.inl ⟨_, _, rfl, parsed, rfl, rfl⟩
      · exact Or.inr ⟨hflow, hn⟩
  | refuse | start | finish =>
      exact Or.inr ⟨rfl, by simpa [Turn.refused] using (text_ne_of_isScript rfl).symm⟩
  | miss => exact Or.inr ⟨rfl, by simp [Turn.failed, Turn.quiet]⟩
  | stop => contradiction

/-- After the request a step can only leave the innermost script. -/
theorem Step.leaves (step : Step around c as d) (h : c.flow = .shutdown) :
    ∃ frame, c.opened = frame :: d.opened ∧ as = [frame.stopped] ∧ d.volume = c.volume ∧
      d.flow = .shutdown := by
  cases step with
  | stop => exact ⟨_, rfl, rfl, rfl, rfl⟩
  | _ => contradiction

/-! ## Runs -/

/-- **Run lemma**: after the request nothing is changed or written, and what is
logged are the messages that leave the innermost scripts, one after another. -/
theorem Runs.leaves (runs : Runs around c as d) (h : c.flow = .shutdown) :
    ∃ left, c.opened = left ++ d.opened ∧ as = left.map Frame.stopped ∧ d.volume = c.volume ∧
      d.flow = .shutdown := by
  induction runs with
  | refl => exact ⟨[], rfl, rfl, rfl, h⟩
  | head step _ ih =>
      obtain ⟨frame, hopened, rfl, hvolume, hflow⟩ := step.leaves h
      obtain ⟨left, hleft, rfl, hvolume', hflow'⟩ := ih hflow
      exact ⟨frame :: left, by rw [hopened, hleft, List.cons_append], rfl,
        hvolume'.trans hvolume, hflow'⟩

/-- **Run lemma**: a run goes on to its end and says nothing of a shutdown, or it
comes to a line that asks for one, once. -/
theorem Runs.requests_or_goes_on (runs : Runs around c as d) (h : c.flow = .next) :
    (d.flow = .next ∧ requestText ∉ texts as) ∨
      (d.flow = .shutdown ∧ (texts as).count requestText = 1 ∧
        ∃ before line lines opened left,
          Runs around c before ⟨d.volume, line :: lines, opened, .next⟩ ∧
          Command.parse line = .ok (some .shutdown) ∧ opened = left ++ d.opened ∧
          as = before ++ .log .shutdownRequested :: left.map Frame.stopped) := by
  induction runs with
  | refl c => exact Or.inl ⟨h, by simp⟩
  | @head c d e as bs step rest ih =>
      obtain ⟨line, lines, hc, parsed, rfl, hd⟩ | ⟨hflow, hn⟩ := step.requests_or_goes_on h
      · obtain ⟨left, hopened, rfl, hvolume, hflow⟩ := rest.leaves (by rw [hd])
        have honce : (texts (left.map Frame.stopped)).count requestText = 0 :=
          List.count_eq_zero.mpr (requestText_notMem_stopped left)
        have hrequest : Message.shutdownRequested.text = requestText := rfl
        refine Or.inr ⟨hflow, by simp [honce, hrequest], [], line, lines, d.opened, left, ?_,
          parsed, hopened, rfl⟩
        rw [hvolume, ← hc]
        exact .refl c
      · have hzero : (texts as).count requestText = 0 := List.count_eq_zero.mpr hn
        obtain ⟨hflow', hn'⟩ | ⟨hflow', honce, before, line, lines, opened, left, hbefore, parsed,
          hopened, rfl⟩ := ih hflow
        · exact Or.inl ⟨hflow', by simp [hn, hn']⟩
        · exact Or.inr ⟨hflow', by rw [Action.texts_append, List.count_append, hzero, honce],
            as ++ before, line, lines, opened, left, .head step hbefore, parsed, hopened,
            (List.append_assoc ..).symm⟩

/-- A run ends in a shutdown just if there is a request among its words. -/
theorem Runs.flow_eq_shutdown_iff (runs : Runs around c as d) (h : c.flow = .next) :
    d.flow = .shutdown ↔ requestText ∈ texts as := by
  obtain ⟨hflow, hn⟩ | ⟨hflow, honce, -⟩ := runs.requests_or_goes_on h
  · simp [hflow, hn]
  · have hmem : requestText ∈ texts as := List.count_pos_iff.mp (by omega)
    simp [hflow, hmem]

/-- **Shutdown**: a call ends with a shutdown exactly if its log has a request.
Then it has one; a line that is a shutdown command makes it, and after that the
call does nothing but leave the scripts that it has open, the innermost first.
Every line that the call comes to and that logs no request goes on with the line
after it. -/
theorem shutdown_is_immediate {depth : Nat} (hd : depth ≤ maxScriptDepth) (v : Volume)
    (line : Text) :
    ∃ t : Turn, (Program.execute line).turn depth v = some t ∧
      (∀ as c, Runs depth (.call v line) as c → ∃ rest, t.actions = as ++ rest ∧
        Runs depth c rest ⟨t.volume, [], [], t.flow⟩) ∧
      (t.flow = .shutdown ↔ requestText ∈ texts t.actions) ∧
      (t.flow = .shutdown → (texts t.actions).count requestText = 1 ∧
        ∃ before w request lines opened,
          Runs depth (.call v line) before ⟨w, request :: lines, opened, .next⟩ ∧
          Command.parse request = .ok (some .shutdown) ∧
          Step depth ⟨w, request :: lines, opened, .next⟩ [.log .shutdownRequested]
            ⟨w, lines, opened, .shutdown⟩ ∧
          (∀ later c, Runs depth ⟨w, lines, opened, .shutdown⟩ later c → c.volume = w) ∧
          t = ⟨w, before ++ .log .shutdownRequested :: opened.map Frame.stopped, .shutdown⟩) ∧
      ∀ before w part lines opened,
        Runs depth (.call v line) before ⟨w, part :: lines, opened, .next⟩ →
        ∃ u : Turn, (Program.execute part).turn (depth + opened.length) w = some u ∧
          Runs depth ⟨w, part :: lines, opened, .next⟩ u.actions ⟨u.volume, lines, opened, u.flow⟩ ∧
          (requestText ∉ texts u.actions → u.flow = .next) := by
  have hlevels : depth + ([] : List Frame).length + (maxScriptDepth - depth) = maxScriptDepth :=
    Nat.add_sub_of_le hd
  have hruns := runs_execute hlevels v line []
  have hturn := Program.turn_execute hd v line
  generalize execute (maxScriptDepth - depth) v line = t at hruns hturn
  refine ⟨t, hturn, fun as c has => has.rest hruns fun _ _ => not_step_over,
    hruns.flow_eq_shutdown_iff rfl, ?once, ?parts⟩
  case once =>
    intro hflow
    obtain ⟨hnext, -⟩ | ⟨-, honce, before, request, lines, opened, left, hbefore, parsed, hopened,
      hactions⟩ := hruns.requests_or_goes_on rfl
    · exact absurd (hflow.symm.trans hnext) (by decide)
    -- the call begins with no script open, so those that are left are all that are open
    · rw [List.append_nil] at hopened
      subst hopened
      refine ⟨honce, before, t.volume, request, lines, opened, hbefore, parsed,
        .direct (.shutdown parsed rfl), fun later c hlater => ?_, by rw [← hactions, ← hflow]⟩
      obtain ⟨-, -, -, hsame, -⟩ := hlater.leaves rfl
      exact hsame
  case parts =>
    intro before w part lines opened hbefore
    have hdepth := hbefore.depth_le hd
    have hpart := runs_execute (Nat.add_sub_of_le hdepth) w part lines
    refine ⟨_, Program.turn_execute hdepth w part, hpart, fun hn => ?_⟩
    cases hflow : (execute (maxScriptDepth - (depth + opened.length)) w part).flow with
    | next => rfl
    | shutdown => exact absurd ((hpart.flow_eq_shutdown_iff rfl).mp hflow) hn

/-- What makes two scripts, `s` and `t`.  The first fails, runs the second one and
would go on after it; the second one fails three times and asks for a shutdown. -/
def haltingScripts : List Op :=
  [.touch "t".toList, .write "t".toList "frob;rm /;run gone;shutdown;touch z".toList,
    .chmod "t".toList 7, .touch "s".toList, .write "s".toList "cat gone; run t; touch z".toList,
    .chmod "s".toList 7]

/-- A shutdown in a script that a script has run, with errors in both. -/
theorem shutdown_is_immediate_inside_scripts :
    ∃ fresh, Volume.format {} = .ok fresh ∧ ∃ v t, v = fresh.runAll haltingScripts ∧
      (Program.execute "run s".toList).turn 0 v = some t ∧ t.flow = .shutdown ∧
      Action.messages t.actions = [.scriptStarted "s".toList 1, .scriptStarted "t".toList 2,
        .performed "rm".toList ['/'] (some .wrongType), .shutdownRequested,
        .scriptStopped "t".toList, .scriptStopped "s".toList] ∧
      (texts t.actions).count requestText = 1 ∧ (t.volume.locate "z".toList).toOption = none := by
  obtain ⟨fresh, hf, v, hv, hflow, hmessages, hmissing⟩ :
      ∃ fresh, Volume.format {} = .ok fresh ∧ ∃ v, v = fresh.runAll haltingScripts ∧
        (execute 4 v "run s".toList).flow = .shutdown ∧
        Action.messages (execute 4 v "run s".toList).actions = [.scriptStarted "s".toList 1,
          .scriptStarted "t".toList 2, .performed "rm".toList ['/'] (some .wrongType),
          .shutdownRequested, .scriptStopped "t".toList, .scriptStopped "s".toList] ∧
        ((execute 4 v "run s".toList).volume.locate "z".toList).toOption = none :=
    ⟨_, rfl, _, rfl, by decide +kernel⟩
  have hlevels : 0 ≤ maxScriptDepth := Nat.zero_le _
  obtain ⟨t, hturn, -, -, hshutdown, -⟩ := shutdown_is_immediate hlevels v "run s".toList
  have ht : t = execute 4 v "run s".toList := by
    rw [Program.turn_execute hlevels] at hturn
    exact (Option.some.inj hturn).symm
  subst ht
  exact ⟨fresh, hf, v, _, hv, hturn, hflow, hmessages, (hshutdown hflow).1, hmissing⟩

end Shell

end RamFs
