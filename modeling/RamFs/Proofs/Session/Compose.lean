import RamFs.Proofs.Session.Loop

/-!
# RamFs.Proofs.Session.Compose

A session is what its lines do, one after another.  What a line does depends on
the volume that those before it have left and on nothing else
(`converse_entered`).  So input may be given in pieces: a session on one piece of
whole lines and another on the next piece do what one session does on both
(`sessions_compose`), as long as no line of the first asks for a shutdown.
-/

namespace RamFs

namespace Kernel

open LineEditor (EnteredLine enteredLines endsLine limitOf defaultCapacity)
open Shell (Turn executeLine sequence)

variable {limits : Limits} {echoes : Bool} {v : Volume} {e : EnteredLine}
  {es : List EnteredLine} {keys input : Bytes}

/-! ## One line -/

/-- The text of an entered line. -/
def typed (e : EnteredLine) : Text := Text.decode (e.line (limitOf defaultCapacity))

/-- What is done about an entered line, from the prompt to the end of its turn. -/
def lineActions (echoes : Bool) (v : Volume) (e : EnteredLine) : List Action :=
  .print prompt :: .write (e.echo (limitOf defaultCapacity) echoes) ::
    (executeLine v (typed e)).actions

/-- The exchange over a whole line that was typed, with more input behind it. -/
theorem exchange_entered (input : Bytes) : exchange echoes v (e.bytes ++ input) =
    ⟨(executeLine v (typed e)).volume, .write (e.echo (limitOf defaultCapacity) echoes) ::
      (executeLine v (typed e)).actions, input, (executeLine v (typed e)).flow == .shutdown⟩ := by
  rw [exchange, e.read_bytes_append]
  rfl

/-- A shutdown leaves the input after its line. -/
theorem converse_entered_shutdown (h : (executeLine v (typed e)).flow = .shutdown) (input : Bytes) :
    converse echoes v (e.bytes ++ input) =
      ⟨(executeLine v (typed e)).volume, lineActions echoes v e, input⟩ := by
  have he : exchange echoes v (e.bytes ++ input) = _ := exchange_entered input
  rw [h] at he
  exact converse_of_ends he

/-- A session over a whole line goes on with the input behind it. -/
theorem converse_entered_next (h : (executeLine v (typed e)).flow = .next) (input : Bytes) :
    converse echoes v (e.bytes ++ input) =
      let later := converse echoes (executeLine v (typed e)).volume input
      ⟨later.volume, lineActions echoes v e ++ later.actions, later.rest⟩ := by
  have he : exchange echoes v (e.bytes ++ input) = _ := exchange_entered input
  rw [h] at he
  exact converse_of_goes_on he

/-! ## Several lines -/

/-- What is done about entered lines, one after another. -/
def talk (echoes : Bool) (v : Volume) : List EnteredLine → List Action
  | [] => []
  | e :: es => lineActions echoes v e ++ talk echoes (executeLine v (typed e)).volume es

/-- **Run lemma**: entered lines of which none asks for a shutdown are carried out, and
the session goes on with the input after them and the volume they leave. -/
theorem converse_entered (echoes : Bool) (h : (sequence executeLine v (es.map typed)).flow = .next)
    (input : Bytes) : converse echoes v (es.flatMap EnteredLine.bytes ++ input) =
      let later := converse echoes (sequence executeLine v (es.map typed)).volume input
      ⟨later.volume, talk echoes v es ++ later.actions, later.rest⟩ := by
  induction es generalizing v with
  | nil => rfl
  | cons e es ih =>
      cases hflow : (executeLine v (typed e)).flow with
      | shutdown =>
          rw [List.map_cons, Shell.sequence_cons_shutdown hflow, hflow] at h
          contradiction
      | next =>
          rw [List.map_cons, Shell.sequence_cons_next hflow] at h ⊢
          rw [List.flatMap_cons, List.append_assoc, converse_entered_next hflow, ih h]
          simp [talk, Turn.andThen]

/-- A session without input ends at its first prompt. -/
theorem converse_nil (v : Volume) :
    converse echoes v [] = ⟨v, [.print prompt, .write [], .log .inputClosed], []⟩ :=
  converse_of_ends rfl

/-- An exchange leaves the input that its line leaves. -/
theorem rest_exchange (input : Bytes) : (exchange echoes v input).rest =
    (LineEditor.read (limitOf defaultCapacity) echoes input).rest := by
  unfold exchange respond
  split <;> rfl

/-- A line that nothing ends uses up the input, whatever becomes of it. -/
theorem rest_converse_open (h : ∀ b ∈ keys, endsLine b = false) :
    (converse echoes v keys).rest = [] := by
  have hrest : (exchange echoes v keys).rest = [] := by
    rw [rest_exchange, LineEditor.read, LineEditor.readFrom_open h]
  cases he : exchange echoes v keys with
  | mk w actions rest ends =>
      rw [he] at hrest
      subst hrest
      cases ends with
      | true => rw [converse_of_ends he]
      | false => rw [converse_of_goes_on he, converse_nil]

/-! ## Runs -/

/-- A session ends, and what it leaves is that of `Kernel.run`, whatever the buffer
held before. -/
theorem exec_run_ends (platform : Platform) {s : State} (hs : s.depth = 0) (hv : s.volume = v)
    (h : s.console.pending = input) :
    let r := Kernel.run platform v input
    ∃ t, (Program.run platform).exec s = some ((), t) ∧ t.depth = 0 ∧ t.volume = r.volume ∧
      t.console.pending = r.rest ∧
      t.console.written = s.console.written ++ Action.output r.actions := by
  subst hv h
  obtain ⟨held, hrun⟩ := Program.exec_run platform hs
  exact ⟨_, hrun, hs, rfl, rfl, rfl⟩

/-- A kernel that has booted, with an input that waits. -/
def State.booted (limits : Limits) (input : Bytes) : Except FsError State :=
  (boot limits).2.map fun v => ⟨v, 0, [], .ofInput input, (boot limits).1⟩

/-- A session on a kernel that has booted. -/
theorem exec_run_booted (platform : Platform) (hb : (boot limits).2 = .ok v) (input : Bytes) :
    let r := Kernel.run platform v input
    ∃ s t, State.booted limits input = .ok s ∧ (Program.run platform).exec s = some ((), t) ∧
      t.depth = 0 ∧ t.volume = r.volume ∧ t.console.pending = r.rest ∧
      t.console.written = Action.output r.actions := by
  let s : State := ⟨v, 0, [], .ofInput input, (boot limits).1⟩
  have hboot : State.booted limits input = .ok s := by
    rw [State.booted, hb]
    rfl
  obtain ⟨t, ht⟩ := exec_run_ends platform (s := s) rfl rfl rfl
  exact ⟨s, t, hboot, ht⟩

/-- The input that a session leaves. -/
theorem pending_run (platform : Platform) (v : Volume) (h : enteredLines input = (es, keys)) :
    ((sequence executeLine v (es.map typed)).flow = .next →
      (Kernel.run platform v input).rest = []) ∧
    ∀ done e left, es = done ++ e :: left → (sequence executeLine v (done.map typed)).flow = .next →
      (executeLine (sequence executeLine v (done.map typed)).volume (typed e)).flow = .shutdown →
      (Kernel.run platform v input).rest = left.flatMap EnteredLine.bytes ++ keys := by
  have hbytes := LineEditor.bytes_enteredLines input
  rw [h] at hbytes
  have hopen : ∀ b ∈ keys, endsLine b = false := fun b hb =>
    LineEditor.endsLine_of_mem_enteredLines (by rw [h]; exact hb)
  constructor
  · intro hnext
    rw [← hbytes, Kernel.run, converse_entered _ hnext]
    exact rest_converse_open hopen
  · rintro done e left rfl hnext hshutdown
    rw [← hbytes, List.flatMap_append, List.append_assoc, List.flatMap_cons, List.append_assoc,
      Kernel.run, converse_entered _ hnext, converse_entered_shutdown hshutdown]

theorem output_powerActions (platform : Platform) : Action.output platform.powerActions = [] := by
  unfold Platform.powerActions
  split <;> rfl

/-- A session on whole lines, and on whole lines with more input after them. -/
theorem run_entered (platform : Platform)
    (h : (sequence executeLine v (es.map typed)).flow = .next) :
    let w := (sequence executeLine v (es.map typed)).volume
    let lead := Text.encode banner ++ Action.output (talk (!platform.echoesInput) v es)
    let first := Kernel.run platform v (es.flatMap EnteredLine.bytes)
    (first.volume = w ∧ first.rest = [] ∧
      Action.output first.actions = lead ++ Text.encode prompt) ∧
    ∀ input, ∃ shown,
      let second := Kernel.run platform w input
      let whole := Kernel.run platform v (es.flatMap EnteredLine.bytes ++ input)
      whole.volume = second.volume ∧ whole.rest = second.rest ∧
        Action.output second.actions = Text.encode banner ++ shown ∧
        Action.output whole.actions = lead ++ shown := by
  have hwhole := converse_entered (!platform.echoesInput) h
  have hfirst := hwhole []
  rw [List.append_nil, converse_nil] at hfirst
  refine ⟨?first, fun input => ?second⟩
  case first => simp [Kernel.run, hfirst, output_powerActions]
  case second =>
    let later :=
      converse (!platform.echoesInput) (sequence executeLine v (es.map typed)).volume input
    refine ⟨Action.output later.actions, ?_⟩
    simp [Kernel.run, hwhole, output_powerActions, later]

/-- **Sessions compose**: a session ends, and it leaves the input after the line
that asks for a shutdown, or nothing.  If the first of two inputs ends with a whole
line and none of its lines asks for a shutdown, then one session after the other
does what one session does on both, but for a prompt and a banner between them. -/
theorem sessions_compose {fresh : Volume} (hb : (boot limits).2 = .ok fresh)
    (platform : Platform) :
    (∀ input, ∃ s t es keys,
      State.booted limits input = .ok s ∧ (Program.run platform).exec s = some ((), t) ∧
      enteredLines input = (es, keys) ∧ es.flatMap EnteredLine.bytes ++ keys = input ∧
      (∀ b ∈ keys, endsLine b = false) ∧
      ((sequence executeLine fresh (es.map typed)).flow = .next → t.console.pending = []) ∧
      ∀ done e left, es = done ++ e :: left →
        (sequence executeLine fresh (done.map typed)).flow = .next →
        (executeLine (sequence executeLine fresh (done.map typed)).volume (typed e)).flow =
          .shutdown →
        t.console.pending = left.flatMap EnteredLine.bytes ++ keys) ∧
    ∀ a b last, a.getLast? = some last → endsLine last = true →
      (sequence executeLine fresh ((enteredLines a).1.map typed)).flow = .next →
      ∃ s s' t u u' X Y,
        State.booted limits a = .ok s ∧ (Program.run platform).exec s = some ((), s') ∧
        (Program.run platform).exec (s'.queue b) = some ((), t) ∧
        State.booted limits (a ++ b) = .ok u ∧ (Program.run platform).exec u = some ((), u') ∧
        t.volume = u'.volume ∧ t.console.pending = u'.console.pending ∧
        s'.console.written = X ++ Text.encode prompt ∧
        t.console.written = s'.console.written ++ (Text.encode banner ++ Y) ∧
        u'.console.written = X ++ Y := by
  constructor
  · intro input
    obtain ⟨s, t, hs, hrun, -, -, hpending, -⟩ := exec_run_booted platform hb input
    have hlines : enteredLines input = ((enteredLines input).1, (enteredLines input).2) := rfl
    obtain ⟨hnext, hshutdown⟩ := pending_run platform fresh hlines
    rw [← hpending] at hnext hshutdown
    exact ⟨s, t, _, _, hs, hrun, hlines, LineEditor.bytes_enteredLines input,
      fun b hb => LineEditor.endsLine_of_mem_enteredLines hb, hnext, hshutdown⟩
  · intro a b last hlast hends hnext
    have ha : (enteredLines a).1.flatMap EnteredLine.bytes = a := by
      have hbytes := LineEditor.bytes_enteredLines a
      rwa [LineEditor.keys_enteredLines hlast hends, List.append_nil] at hbytes
    obtain ⟨⟨hvolume, hrest, hfirst⟩, hinput⟩ := run_entered platform hnext
    rw [ha] at hvolume hrest hfirst hinput
    obtain ⟨shown, hsame, hleft, hsecond, hwhole⟩ := hinput b
    obtain ⟨s, s', hs, hrun, hdepth, hv, hp, hw⟩ := exec_run_booted platform hb a
    obtain ⟨u, u', hu, hrun', -, hv', hp', hw'⟩ := exec_run_booted platform hb (a ++ b)
    -- the second session starts where the first has left the kernel
    have hqueue : (s'.queue b).console.pending = b := by
      simp [State.queue, Prepared.push, hp, hrest]
    obtain ⟨t, hthen, -, hv'', hp'', hw''⟩ :=
      exec_run_ends platform (s := s'.queue b) hdepth (hv.trans hvolume) hqueue
    have hwritten : (s'.queue b).console.written = s'.console.written := rfl
    refine ⟨s, s', t, u, u', _, shown, hs, hrun, hthen, hu, hrun', ?_, ?_, hw.trans hfirst, ?_,
      hw'.trans hwhole⟩
    · rw [hv'', hv', hsame]
    · rw [hp'', hp', hleft]
    · rw [hw'', hwritten, hsecond]

/-- The keys of a line that makes a directory, with one taken back, and its end. -/
def firstInput : Bytes := Text.encode "mkdir dx".toList ++ [0x08, 0x0D, 0x0A]

/-- A line that uses the directory, a shutdown, and a line that is never read. -/
def secondInput : Bytes := Text.encode "touch d/f\nshutdown\nls\n".toList

/-- The second session finds the directory that the first has made, and leaves the
line after the shutdown. -/
theorem sessions_compose_up_to_shutdown :
    ∃ s s' t u u' X Y, State.booted {} firstInput = .ok s ∧
      (Program.run (.scripted false)).exec s = some ((), s') ∧
      (Program.run (.scripted false)).exec (s'.queue secondInput) = some ((), t) ∧
      State.booted {} (firstInput ++ secondInput) = .ok u ∧
      (Program.run (.scripted false)).exec u = some ((), u') ∧
      t.volume = u'.volume ∧ t.console.pending = Text.encode "ls\n".toList ∧
      s'.console.written = X ++ Text.encode prompt ∧ u'.console.written = X ++ Y := by
  obtain ⟨fresh, hb, hnext, done, e, left, hsplit, hdone, hshutdown, hleft⟩ :
      ∃ fresh, (boot {}).2 = .ok fresh ∧
        (sequence executeLine fresh ((enteredLines firstInput).1.map typed)).flow = .next ∧
        ∃ done e left, (enteredLines (firstInput ++ secondInput)).1 = done ++ e :: left ∧
          (sequence executeLine fresh (done.map typed)).flow = .next ∧
          (executeLine (sequence executeLine fresh (done.map typed)).volume (typed e)).flow =
            .shutdown ∧
          left.flatMap EnteredLine.bytes ++ (enteredLines (firstInput ++ secondInput)).2 =
            Text.encode "ls\n".toList := by
    refine ⟨_, rfl, by decide +kernel, (enteredLines (firstInput ++ secondInput)).1.take 3,
      ⟨Text.encode "shutdown".toList, 0x0A, by decide +kernel, by decide⟩,
      (enteredLines (firstInput ++ secondInput)).1.drop 4, rfl, ?_, ?_, ?_⟩
    all_goals decide +kernel
  obtain ⟨hends, hcompose⟩ := sessions_compose hb (.scripted false)
  obtain ⟨s, s', t, u, u', X, Y, hs, hrun, hthen, hu, hrun', hv, hp, hX, -, hY⟩ :=
    hcompose firstInput secondInput 0x0A (by decide) (by decide) hnext
  obtain ⟨w, w', es, keys, hw, hrun'', hlines, -, -, -, hstops⟩ := hends (firstInput ++ secondInput)
  -- both parts speak of the same session on the two inputs together
  obtain rfl : u = w := Except.ok.inj (hu.symm.trans hw)
  obtain rfl : u' = w' := congrArg Prod.snd (Option.some.inj (hrun'.symm.trans hrun''))
  rw [hlines] at hsplit hleft
  have hpending := hstops done e left hsplit hdone hshutdown
  exact ⟨s, s', t, u, u', X, Y, hs, hrun, hthen, hu, hrun', hv, hp.trans (hpending.trans hleft),
    hX, hY⟩

end Kernel

end RamFs
