import RamFs.Command.Parser
import RamFs.Proofs.Command.Spaced

/-!
# RamFs.Proofs.Command.NormalForm

Commands and the lines that stand for them.  `render` writes a command as its word
and its arguments with single blanks between them.  Only a command whose arguments
a line can give (`Typeable`) is ever read, and each of these is read from its
rendered line and from every other line that differs from it in the runs of blanks
alone (`parse_spaced`, `typeable_of_parse`).
-/

namespace RamFs

namespace Text

/-- A digit is not a blank. -/
theorem isBlank_of_isDigit {c : Char} (h : c.isDigit = true) : isBlank c = false := by
  have hlow : 48 ≤ c.toNat ∧ c.toNat ≤ 57 := by
    simpa [Char.isDigit, UInt32.le_iff_toNat_le] using h
  simp only [isBlank, blankRanges, List.any_cons, List.any_nil, Bool.or_false, Bool.or_eq_false_iff,
    Bool.and_eq_false_iff, decide_eq_false_iff_not]
  omega

/-- A number is written as a word. -/
theorem isWord_ofNat (n : Nat) : IsWord (ofNat n) :=
  ⟨ofNat_ne_nil n, fun c hc => isBlank_of_isDigit (List.all_eq_true.mp (all_isDigit_ofNat n) c hc)⟩

end Text

namespace Command

open Text (AllBlank IsWord Unindented Spaced)

variable {command : Command} {parents all : Bool} {line rest t usage w : Text}

/-! ## Writing commands -/

/-- The verb of a command. -/
def verb : Command → Verb
  | .help => .help
  | .echo _ => .echo
  | .mkdir _ _ => .mkdir
  | .touch _ => .touch
  | .touchReadOnly _ => .touchReadOnly
  | .rm _ => .rm
  | .rmdir _ => .rmdir
  | .ls _ _ => .ls
  | .cd _ => .cd
  | .pwd => .pwd
  | .write _ _ => .write
  | .cat _ => .cat
  | .chmod _ _ => .chmod
  | .stat _ => .stat
  | .run _ => .run
  | .mem => .mem
  | .shutdown => .shutdown

/-- The arguments of a command in the order in which they are typed.  Flags stand
before paths, and the empty path of a listing is left out. -/
def arguments : Command → List Text
  | .help | .pwd | .mem | .shutdown => []
  | .echo text => [text]
  | .mkdir path parents => (if parents then [parentsFlag] else []) ++ [path]
  | .ls path all => (if all then [allFlag] else []) ++ (if path = [] then [] else [path])
  | .touch path | .touchReadOnly path | .rm path | .rmdir path | .cd path | .cat path | .stat path
  | .run path => [path]
  | .write path text => [path, text]
  | .chmod path mode => [path, Text.ofNat mode.toNat]

/-- The line of a command: its word and its arguments, each after a single blank. -/
def render (command : Command) : Text := command.verb.word ++ Text.spread command.arguments

/-! ## Commands that a line can give -/

/-- The paths of a command; a listing may do without one. -/
def paths : Command → List Text
  | .help | .echo _ | .pwd | .mem | .shutdown => []
  | .ls path _ => if path = [] then [] else [path]
  | .mkdir path _ | .touch path | .touchReadOnly path | .rm path | .rmdir path | .cd path
  | .write path _ | .cat path | .chmod path _ | .stat path | .run path => [path]

/-- The texts that a command takes as they are typed. -/
def texts : Command → List Text
  | .echo text | .write _ text => [text]
  | _ => []

/-- The arguments of a command are such that a line can give them: blanks end a
path and come before a text, and a flag is never taken for a path. -/
structure Typeable (command : Command) : Prop where
  paths : ∀ path ∈ command.paths, IsWord path
  texts : ∀ text ∈ command.texts, Unindented text
  mkdir : command ≠ .mkdir parentsFlag false
  ls : ∀ all, command ≠ .ls allFlag all

/-- A command with one path and nothing else to look at. -/
theorem Typeable.of_path (hw : IsWord w) (paths : command.paths = [w]) (texts : command.texts = [])
    (mkdir : command ≠ .mkdir parentsFlag false) (ls : ∀ all, command ≠ .ls allFlag all) :
    command.Typeable where
  paths := by simpa [paths] using hw
  texts := by simp [texts]
  mkdir := mkdir
  ls := ls

/-- A command without a path and without a text. -/
theorem Typeable.of_nothing (paths : command.paths = []) (texts : command.texts = [])
    (mkdir : command ≠ .mkdir parentsFlag false) (ls : ∀ all, command ≠ .ls allFlag all) :
    command.Typeable where
  paths := by simp [paths]
  texts := by simp [texts]
  mkdir := mkdir
  ls := ls

/-! ## Arguments -/

theorem required_of_isWord (hw : IsWord w) (usage : Text) : required usage w = .ok w := if_neg hw.1

/-- What is required and given is the first word. -/
theorem required_eq_ok (h : required usage (Text.splitWord rest).1 = .ok w) :
    w = (Text.splitWord rest).1 ∧ IsWord w := by
  rw [required] at h
  split at h
  case isTrue => contradiction
  case isFalse hne =>
    cases h
    exact ⟨rfl, Text.isWord_splitWord hne⟩

/-- A command that takes one word has it for its path. -/
theorem map_required_eq_ok {f : Text → Command}
    (h : (required usage (Text.splitWord rest).1).map f = .ok command) :
    ∃ path, IsWord path ∧ command = f path := by
  cases hr : required usage (Text.splitWord rest).1 with
  | error e => rw [hr] at h; contradiction
  | ok path =>
      rw [hr] at h
      cases h
      exact ⟨path, (required_eq_ok hr).2, rfl⟩

/-- A number is read back from its digits. -/
theorem number_ofNat (mode : UInt32) : number (Text.ofNat mode.toNat) = .ok mode := by
  rw [number, Text.unsigned?_ofNat mode.toNat_lt]
  simp

/-! ## Reading what was written -/

/-- The first argument is read if it is a path, and leaves what is spaced from it. -/
theorem required_spaced {ws : List Text} (hs : Spaced (w :: ws) t) (hw : IsWord w) (usage : Text) :
    required usage (Text.splitWord (Text.trimStart t)).1 = .ok w := by
  obtain ⟨rest, -, hsplit⟩ := hs.exists_splitWord hw
  rw [hsplit]
  exact required_of_isWord hw usage

/-- The arguments of `mkdir` are read back, with the flag and without it. -/
theorem ofVerb_mkdir (hc : (Command.mkdir w parents).Typeable)
    (hs : Spaced (Command.mkdir w parents).arguments t) :
    ofVerb .mkdir (Text.trimStart t) = .ok (.mkdir w parents) := by
  have hw : IsWord w := hc.paths w List.mem_cons_self
  cases parents with
  | false =>
      have hne : w ≠ parentsFlag := fun e => hc.mkdir (by rw [e])
      obtain ⟨rest, -, hsplit⟩ := Spaced.exists_splitWord hs hw
      simp only [ofVerb, hsplit, if_neg hne, required_of_isWord hw]
      rfl
  | true =>
      obtain ⟨rest, later, hsplit⟩ := Spaced.exists_splitWord hs (by decide)
      obtain ⟨rest', -, hsplit'⟩ := later.exists_splitWord hw
      simp only [ofVerb, hsplit, hsplit', if_pos, required_of_isWord hw]
      rfl

/-- The words of a listing are its flag and its path, in this order. -/
theorem ofVerb_ls (hc : (Command.ls w all).Typeable)
    (hs : Spaced (Command.ls w all).arguments t) :
    ofVerb .ls (Text.trimStart t) = .ok (.ls w all) := by
  have hne : w ≠ allFlag := fun e => hc.ls all (by rw [e])
  have hflag : IsWord allFlag := by decide
  have hwords : Text.words t = (Command.ls w all).arguments := by
    refine hs.words_eq fun x hx => ?_
    obtain hx | hx := List.mem_append.mp hx
    · cases all with
      | false => contradiction
      | true => exact List.mem_singleton.mp hx ▸ hflag
    · exact hc.paths x hx
  simp only [ofVerb, Text.words_trimStart, hwords, arguments]
  by_cases hw : w = []
  · cases all <;> simp [hw]
  · cases all <;> simp [hw, hne, hne.symm]

/-- The arguments of a command are read back after its verb, with any blanks between them. -/
theorem ofVerb_spaced (hc : command.Typeable) (hs : Spaced command.arguments t) :
    ofVerb command.verb (Text.trimStart t) = .ok command := by
  cases command with
  | help | pwd | mem | shutdown => rfl
  | echo text =>
      exact congrArg (Except.ok ∘ Command.echo) (hs.trimStart_eq (hc.texts text List.mem_cons_self))
  | mkdir path parents => exact ofVerb_mkdir hc hs
  | ls path all => exact ofVerb_ls hc hs
  | touch path | touchReadOnly path | rm path | rmdir path | cat path | stat path | run path =>
      have hw : IsWord path := hc.paths path List.mem_cons_self
      simp only [ofVerb, verb, required_spaced hs hw]
      rfl
  | cd path =>
      have hw : IsWord path := hc.paths path List.mem_cons_self
      obtain ⟨rest, -, hsplit⟩ := hs.exists_splitWord hw
      simp only [ofVerb, verb, hsplit, if_neg hw.1]
  | write path text =>
      have hw : IsWord path := hc.paths path List.mem_cons_self
      obtain ⟨rest, later, hsplit⟩ := hs.exists_splitWord hw
      simp only [ofVerb, verb, hsplit, required_of_isWord hw,
        later.trimStart_eq (hc.texts text List.mem_cons_self)]
      rfl
  | chmod path mode =>
      have hw : IsWord path := hc.paths path List.mem_cons_self
      have hn := Text.isWord_ofNat mode.toNat
      obtain ⟨rest, later, hsplit⟩ := hs.exists_splitWord hw
      obtain ⟨rest', -, hsplit'⟩ := later.exists_splitWord hn
      simp only [ofVerb, verb, hsplit, hsplit', required_of_isWord hw, required_of_isWord hn, bind,
        Except.bind, number_ofNat]

/-- The word of every verb is one. -/
theorem isWord_word (verb : Verb) : IsWord verb.word := by cases verb <;> decide

/-- **Reading back**: a command that can be typed is read from its word and its
arguments, whatever blanks stand before and between them. -/
theorem parse_spaced (hc : command.Typeable) {lead : Text} (hlead : AllBlank lead)
    (hs : Spaced command.arguments t) :
    parse (lead ++ command.verb.word ++ t) = .ok (some command) := by
  have hword := isWord_word command.verb
  have hsplit : Text.splitWord (lead ++ command.verb.word ++ t) =
      (command.verb.word, Text.trimStart t) := by
    rw [List.append_assoc, Text.splitWord_append_blank hlead, Text.splitWord_spaced hword hs]
  simp only [parse, hsplit, if_neg hword.1, Verb.ofWord?_word, ofVerb_spaced hc hs]
  rfl

/-- Every typeable command is read back from the line it is rendered as. -/
theorem parse_render (hc : command.Typeable) : parse command.render = .ok (some command) := by
  have hlead : AllBlank [] := by simp [AllBlank]
  exact parse_spaced hc hlead (Text.spaced_spread command.arguments)

/-! ## What is read can be typed -/

theorem typeable_mkdir (h : ofVerb .mkdir rest = .ok command) : command.Typeable := by
  simp only [ofVerb] at h
  split at h
  case isTrue =>
    obtain ⟨path, hw, rfl⟩ := map_required_eq_ok h
    exact .of_path hw rfl rfl nofun nofun
  case isFalse hne =>
    cases hr : required "mkdir <path>".toList (Text.splitWord rest).1 with
    | error e => rw [hr] at h; contradiction
    | ok path =>
        rw [hr] at h
        cases h
        obtain ⟨rfl, hw⟩ := required_eq_ok hr
        exact .of_path hw rfl rfl (fun e => hne (Command.mkdir.inj e).1) nofun

theorem typeable_ls (h : ofVerb .ls rest = .ok command) : command.Typeable := by
  simp only [ofVerb] at h
  cases hf : (Text.words rest).find? (· != allFlag) with
  | none =>
      rw [hf] at h
      cases h
      exact .of_nothing rfl rfl nofun nofun
  | some path =>
      rw [hf] at h
      cases h
      have hw : IsWord path := Text.isWord_of_mem_words (List.mem_of_find?_eq_some hf)
      have hne : path ≠ allFlag := by simpa using List.find?_some hf
      exact .of_path hw (if_neg hw.1) rfl nofun fun all e => hne (Command.ls.inj e).1

/-- What is read after a verb is typeable. -/
theorem typeable_of_ofVerb {verb : Verb} (hrest : Unindented rest)
    (h : ofVerb verb rest = .ok command) :
    command.Typeable := by
  cases verb with
  | help | pwd | mem | shutdown =>
      cases h
      exact .of_nothing rfl rfl nofun nofun
  | echo =>
      cases h
      exact ⟨nofun, by simpa [texts] using hrest, nofun, nofun⟩
  | mkdir => exact typeable_mkdir h
  | ls => exact typeable_ls h
  | touch | touchReadOnly | rm | rmdir | cat | stat | run =>
      obtain ⟨path, hw, rfl⟩ := map_required_eq_ok h
      exact .of_path hw rfl rfl nofun nofun
  | write =>
      obtain ⟨path, hw, rfl⟩ := map_required_eq_ok h
      refine ⟨by simpa [paths] using hw, ?_, nofun, nofun⟩
      simpa [texts] using Text.unindented_splitWord rest
  | cd =>
      cases h
      refine .of_path ?_ rfl rfl nofun nofun
      split
      case isTrue => decide
      case isFalse hne => exact Text.isWord_splitWord hne
  | chmod =>
      simp only [ofVerb, bind, Except.bind] at h
      split at h
      case h_1 => contradiction
      case h_2 path hr =>
        split at h
        case h_1 => contradiction
        case h_2 word _ =>
          split at h
          case h_1 => contradiction
          case h_2 mode _ =>
            cases h
            exact .of_path (required_eq_ok hr).2 rfl rfl nofun nofun

/-- **Only typeable commands are read**. -/
theorem typeable_of_parse (h : parse line = .ok (some command)) : command.Typeable := by
  simp only [parse] at h
  split at h
  case isTrue => cases h
  case isFalse =>
    split at h
    case h_1 => contradiction
    case h_2 verb _ =>
      cases hv : ofVerb verb (Text.splitWord line).2 with
      | error e => rw [hv] at h; contradiction
      | ok c =>
          rw [hv] at h
          cases h
          exact typeable_of_ofVerb (Text.unindented_splitWord line) hv

/-- Only a blank line stands for nothing. -/
theorem parse_eq_none_iff : parse line = .ok none ↔ AllBlank line := by
  rw [← Text.splitWord_eq_nil_iff]
  constructor
  · intro h
    by_contra hne
    simp only [parse, if_neg hne] at h
    split at h
    case h_1 => contradiction
    case h_2 verb _ => cases hv : ofVerb verb (Text.splitWord line).2 <;> simp [hv, Except.map] at h
  · intro h
    simp only [parse, if_pos h]

/-! ## The normal form -/

/-- **Commands and lines**: what is read from a line can be typed, and is read again
from its rendered line; every command that can be typed is read from its word and
its arguments, whatever runs of blanks stand before and between them; and nothing is
read from blank lines alone. -/
theorem commands_are_read_back :
    (∀ line command, parse line = .ok (some command) →
      command.Typeable ∧ parse command.render = .ok (some command)) ∧
    (∀ command : Command, command.Typeable → ∀ lead t, AllBlank lead →
      Spaced command.arguments t →
        parse (lead ++ command.verb.word ++ t) = .ok (some command)) ∧
    ∀ line, parse line = .ok none ↔ AllBlank line := by
  refine ⟨fun line command h => ?_, fun command hc lead t hlead hs => parse_spaced hc hlead hs,
    fun line => parse_eq_none_iff⟩
  have hc := typeable_of_parse h
  exact ⟨hc, parse_render hc⟩

/-- A directory that goes by the name of a flag, a text whose blanks at the end are
kept, and blanks of several widths. -/
theorem commands_are_read_back_between_odd_blanks :
    (parse "\u3000mkdir\t-p\u2003-p  more".toList = .ok (some (.mkdir "-p".toList true)) ∧
      (mkdir "-p".toList true).Typeable ∧
      parse (mkdir "-p".toList true).render = .ok (some (.mkdir "-p".toList true))) ∧
    ((write "-a".toList "to do \n".toList).Typeable ∧
      Spaced ["-a".toList, "to do \n".toList] "\u00a0\t-a\u2028to do \n".toList ∧
      parse "\u0085write\u00a0\t-a\u2028to do \n".toList =
        .ok (some (.write "-a".toList "to do \n".toList))) ∧
    parse " \t\u2029".toList = .ok none := by
  obtain ⟨hread, hwritten, hblank⟩ := commands_are_read_back
  have hdir : parse "\u3000mkdir\t-p\u2003-p  more".toList =
      .ok (some (.mkdir "-p".toList true)) := by decide +kernel
  have hnote : (write "-a".toList "to do \n".toList).Typeable :=
    ⟨by decide, by decide, nofun, nofun⟩
  have hspaced : Spaced ["-a".toList, "to do \n".toList] "\u00a0\t-a\u2028to do \n".toList :=
    @Spaced.next "\u00a0\t".toList _ _ _ (by decide) (by decide)
      (@Spaced.next "\u2028".toList _ _ _ (by decide) (by decide) .none)
  have hline : "\u0085write\u00a0\t-a\u2028to do \n".toList =
      "\u0085".toList ++ Verb.write.word ++ "\u00a0\t-a\u2028to do \n".toList := by decide +kernel
  refine ⟨⟨hdir, hread _ _ hdir⟩, ⟨hnote, hspaced, ?_⟩, (hblank _).mpr (by decide)⟩
  rw [hline]
  exact hwritten _ hnote _ _ (by decide) hspaced

end Command

end RamFs
