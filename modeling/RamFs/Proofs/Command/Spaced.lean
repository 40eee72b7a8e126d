import Mathlib.Data.List.TakeWhile
import RamFs.Text.Blank

/-!
# RamFs.Proofs.Command.Spaced

Lines by the words they are made of.  `Spaced ws t` says that `t` is the texts
`ws` one after another, each with a run of blanks before it; it is the way back
from the words of a line to the line, and every run of blanks will do.

What is taken off a line word by word is what it was made of: `splitWord_spaced`
takes the first word off, `Spaced.exists_splitWord` the next ones, `Spaced.trimStart_eq`
the text that ends a line, and `Spaced.words_eq` all words at once.
-/

namespace RamFs

namespace Text

variable {t w gap rest : Text} {ws : List Text}

/-! ## Blanks -/

/-- A text of blanks, and of nothing else. -/
def AllBlank (t : Text) : Prop := ∀ c ∈ t, isBlank c = true

/-- A text without blanks that is not empty. -/
def IsWord (w : Text) : Prop := w ≠ [] ∧ ∀ c ∈ w, isBlank c = false

/-- A text that does not start with a blank. -/
def Unindented (t : Text) : Prop := ∀ c ∈ t.head?, isBlank c = false

instance (t : Text) : Decidable (AllBlank t) := List.decidableBAll _ t

instance (w : Text) : Decidable (IsWord w) :=
  have := List.decidableBAll (isBlank · = false) w
  inferInstanceAs (Decidable (w ≠ [] ∧ _))

instance (t : Text) : Decidable (Unindented t) := Option.decidableForallMem t.head?

/-- Trimming leaves a text that starts with no blank. -/
theorem unindented_trimStart (t : Text) : Unindented (trimStart t) := by
  intro c hc
  have hnot := List.head?_dropWhile_not isBlank t
  rw [trimStart] at hc
  rw [Option.mem_def.mp hc] at hnot
  exact hnot

/-- A text that starts with no blank is left alone. -/
theorem trimStart_of_unindented (ht : Unindented t) : trimStart t = t := by
  cases t with
  | nil => rfl
  | cons c t => exact List.dropWhile_cons_of_neg (by simp [ht c rfl])

@[simp] theorem trimStart_trimStart (t : Text) : trimStart (trimStart t) = trimStart t :=
  trimStart_of_unindented (unindented_trimStart t)

/-- Blanks before a text are trimmed with it. -/
theorem trimStart_append (hg : AllBlank gap) (t : Text) : trimStart (gap ++ t) = trimStart t :=
  List.dropWhile_append_of_pos hg

/-- Nothing is left exactly of a blank text. -/
theorem trimStart_eq_nil_iff : trimStart t = [] ↔ AllBlank t := List.dropWhile_eq_nil_iff

/-! ## The first word -/

/-- The first word does not depend on the blanks before it. -/
theorem splitWord_trimStart (t : Text) : splitWord (trimStart t) = splitWord t := by
  rw [splitWord, trimStart_trimStart, splitWord]

theorem splitWord_append_blank (hg : AllBlank gap) (t : Text) :
    splitWord (gap ++ t) = splitWord t := by
  rw [splitWord, trimStart_append hg, splitWord]

/-- A line has no first word exactly if it is blank. -/
theorem splitWord_eq_nil_iff : (splitWord t).1 = [] ↔ AllBlank t := by
  rw [← trimStart_eq_nil_iff, splitWord]
  have hstart := unindented_trimStart t
  generalize trimStart t = s at hstart ⊢
  cases s with
  | nil => simp
  | cons c s => simp [hstart c rfl]

theorem isWord_splitWord (hne : (splitWord t).1 ≠ []) : IsWord (splitWord t).1 :=
  ⟨hne, fun _ => not_isBlank_of_mem_splitWord⟩

/-- What comes after the first word starts with no blank. -/
theorem unindented_splitWord (t : Text) : Unindented (splitWord t).2 := unindented_trimStart _

/-! ## All words -/

/-- The words before a blank and those after it. -/
theorem words_append_cons {b : Char} (hb : isBlank b = true) (t rest : Text) :
    words (t ++ b :: rest) = words t ++ words rest := by
  rw [words, List.splitOnP_append_cons t rest hb, List.filter_append, words, words]

theorem words_append_blank (hg : AllBlank gap) (t : Text) : words (gap ++ t) = words t := by
  induction gap with
  | nil => rfl
  | cons b gap ih =>
      have hgap : AllBlank gap := fun c hc => hg c (List.mem_cons_of_mem b hc)
      rw [List.cons_append, ← ih hgap]
      exact words_append_cons (hg b List.mem_cons_self) [] (gap ++ t)

theorem words_trimStart (t : Text) : words (trimStart t) = words t := by
  have hblank : AllBlank (t.takeWhile isBlank) :=
    List.all_eq_true.mp (List.all_takeWhile (p := isBlank) (l := t))
  rw [← words_append_blank hblank, trimStart, List.takeWhile_append_dropWhile]

/-- A word has itself for its only word. -/
theorem words_of_isWord (hw : IsWord w) : words w = [w] := by
  rw [words, List.splitOnP_eq_singleton hw.2]
  simp [hw.1]

/-- The words of a text are words. -/
theorem isWord_of_mem_words (hw : w ∈ words t) : IsWord w := by
  rw [words, List.mem_filter] at hw
  exact ⟨by simpa using hw.2, fun c hc => not_of_mem_splitOnP hw.1 hc⟩

/-! ## Spaced texts -/

/-- Texts one after another, each after a run of blanks. -/
inductive Spaced : List Text → Text → Prop
  | none : Spaced [] []
  | next {gap rest : Text} {ws : List Text} (w : Text) (blank : AllBlank gap) (apart : gap ≠ [])
      (later : Spaced ws rest) : Spaced (w :: ws) (gap ++ w ++ rest)

/-- Texts one after another, each after a single blank. -/
def spread (ws : List Text) : Text := ws.flatMap (' ' :: ·)

/-- Single blanks space texts apart. -/
theorem spaced_spread (ws : List Text) : Spaced ws (spread ws) := by
  induction ws with
  | nil => exact .none
  | cons w ws ih => exact @Spaced.next [' '] (spread ws) ws w (by decide) (List.cons_ne_nil _ _) ih

/-- What is spaced from a text is nothing or starts with a blank. -/
theorem Spaced.cases (hs : Spaced ws t) :
    t = [] ∧ ws = [] ∨ ∃ b rest, isBlank b = true ∧ t = b :: rest := by
  cases hs with
  | none => exact Or.inl ⟨rfl, rfl⟩
  | @next gap rest ws w blank apart later =>
      obtain ⟨b, gap, rfl⟩ := List.exists_cons_of_ne_nil apart
      exact Or.inr ⟨b, gap ++ w ++ rest, blank b List.mem_cons_self, rfl⟩

/-- A word is taken off what is spaced from it. -/
theorem splitWord_spaced (hw : IsWord w) (hs : Spaced ws t) :
    splitWord (w ++ t) = (w, trimStart t) := by
  obtain ⟨rfl, rfl⟩ | ⟨b, rest, hb, rfl⟩ := hs.cases
  · rw [List.append_nil, splitWord_word hw.2]
    rfl
  · rw [splitWord_append hw.1 hw.2 hb]
    exact congrArg (w, ·) (List.dropWhile_cons_of_pos hb).symm

/-- The next word, and what is spaced from that. -/
theorem Spaced.exists_splitWord (hs : Spaced (w :: ws) t) (hw : IsWord w) :
    ∃ rest, Spaced ws rest ∧ splitWord (trimStart t) = (w, trimStart rest) := by
  cases hs with
  | @next gap rest ws w blank apart later =>
      refine ⟨rest, later, ?_⟩
      rw [splitWord_trimStart, List.append_assoc, splitWord_append_blank blank,
        splitWord_spaced hw later]

/-- The text that ends a line is kept as it is. -/
theorem Spaced.trimStart_eq (hs : Spaced [w] t) (hw : Unindented w) : trimStart t = w := by
  cases hs with
  | next w blank apart later =>
      cases later
      rw [List.append_nil, trimStart_append blank, trimStart_of_unindented hw]

/-- The words of a line are those that it was made of. -/
theorem Spaced.words_eq (hs : Spaced ws t) (hws : ∀ w ∈ ws, IsWord w) : words t = ws := by
  induction hs with
  | none => rfl
  | @next gap rest ws w blank apart later ih =>
      have hw := words_of_isWord (hws w List.mem_cons_self)
      have hrest := ih fun x hx => hws x (List.mem_cons_of_mem w hx)
      rw [List.append_assoc, words_append_blank blank]
      obtain ⟨rfl, rfl⟩ | ⟨b, r, hb, rfl⟩ := later.cases
      · rw [List.append_nil, hw]
      · have hblank : AllBlank [b] := by simpa [AllBlank] using hb
        rw [words_append_cons hb, hw, ← words_append_blank hblank r]
        exact congrArg (w :: ·) hrest

end Text

end RamFs
