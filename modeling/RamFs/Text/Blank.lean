import RamFs.Text.Utf8

/-!
# RamFs.Text.Blank

Blank characters and the words between them.  A character is blank when
Unicode gives it the White_Space property; `blankRanges` is that table.
`splitWord` takes the first word off a line and keeps the rest of the line as
it was typed, `words` takes a line apart completely.
-/

namespace RamFs

namespace Text

/-! ## Blank characters -/

/-- The code points with the White_Space property, as closed ranges in order. -/
def blankRanges : List (Nat × Nat) :=
  [(0x9, 0xD), (0x20, 0x20), (0x85, 0x85), (0xA0, 0xA0), (0x1680, 0x1680), (0x2000, 0x200A),
    (0x2028, 0x2029), (0x202F, 0x202F), (0x205F, 0x205F), (0x3000, 0x3000)]

/-- Whether a character is white space. -/
def isBlank (c : Char) : Bool := blankRanges.any fun r => r.1 ≤ c.toNat && c.toNat ≤ r.2

/-! ## Trimming -/

/-- A text without the blanks it starts with. -/
def trimStart (t : Text) : Text := t.dropWhile isBlank

/-- A text without the blanks it ends with. -/
def trimEnd (t : Text) : Text := (t.reverse.dropWhile isBlank).reverse

/-- A text without the blanks around it. -/
def trim (t : Text) : Text := trimEnd (trimStart t)

/-! ## Words -/

/-- The first word of a line, and the line from its second word on. -/
def splitWord (t : Text) : Text × Text :=
  let s := trimStart t
  (s.takeWhile (!isBlank ·), trimStart (s.dropWhile (!isBlank ·)))

/-- The words of a line. -/
def words (t : Text) : List Text := (t.splitOnP isBlank).filter (· != [])

/-- No piece of a split holds what was split at. -/
theorem not_of_mem_splitOnP {p : Char → Bool} {t piece : Text} (h : piece ∈ t.splitOnP p)
    {c : Char} (hc : c ∈ piece) : p c = false := by
  induction t generalizing piece with
  | nil =>
      rw [List.splitOnP_nil, List.mem_singleton] at h
      rw [h] at hc
      contradiction
  | cons x t ih =>
      rw [List.splitOnP_cons_eq_if_modifyHead] at h
      split at h
      case isTrue =>
        obtain rfl | h := List.mem_cons.mp h
        · contradiction
        · exact ih h hc
      case isFalse hx =>
        obtain ⟨r, rs, hr⟩ := List.exists_cons_of_ne_nil (List.splitOnP_ne_nil p t)
        rw [hr] at ih h
        rw [List.modifyHead_cons] at h
        obtain rfl | h := List.mem_cons.mp h
        · obtain rfl | hc := List.mem_cons.mp hc
          · simpa using hx
          · exact ih List.mem_cons_self hc
        · exact ih (List.mem_cons_of_mem r h) hc

/-- No word holds a blank. -/
theorem not_isBlank_of_mem_splitWord {t : Text} {c : Char} (h : c ∈ (splitWord t).1) :
    isBlank c = false := by
  have := List.all_takeWhile (p := (!isBlank ·)) (l := trimStart t)
  simpa using List.all_eq_true.mp this c h

/-- Whether a text holds a blank can be computed. -/
theorem not_isBlank_of_all {t : Text} (h : t.all (!isBlank ·) = true) :
    ∀ c ∈ t, isBlank c = false := by
  simpa using h

theorem trimStart_eq_self {t : Text} (h : ∀ c ∈ t, isBlank c = false) : trimStart t = t := by
  cases t with
  | nil => rfl
  | cons c t => exact List.dropWhile_cons_of_neg (by simp [h c List.mem_cons_self])

/-- A word is the first word of itself. -/
theorem splitWord_word {w : Text} (h : ∀ c ∈ w, isBlank c = false) : splitWord w = (w, []) := by
  have hp : ∀ c ∈ w, (!isBlank c) = true := by simpa using h
  have htake : (w ++ []).takeWhile (!isBlank ·) = w := by
    rw [List.takeWhile_append_of_pos hp, List.takeWhile_nil, List.append_nil]
  have hdrop : (w ++ []).dropWhile (!isBlank ·) = [] := by
    rw [List.dropWhile_append_of_pos hp, List.dropWhile_nil]
  rw [List.append_nil] at htake hdrop
  rw [splitWord, trimStart_eq_self h, htake, hdrop]
  rfl

/-- A word is the first word of a line that begins with it and goes on after a
blank. -/
theorem splitWord_append {w : Text} (hw : w ≠ []) (h : ∀ c ∈ w, isBlank c = false) {b : Char}
    (hb : isBlank b = true) (rest : Text) : splitWord (w ++ b :: rest) = (w, trimStart rest) := by
  have hstart : trimStart (w ++ b :: rest) = w ++ b :: rest := by
    cases w with
    | nil => contradiction
    | cons c w => exact List.dropWhile_cons_of_neg (by simp [h c List.mem_cons_self])
  have htake : (w ++ b :: rest).takeWhile (!isBlank ·) = w := by
    rw [List.takeWhile_append_of_pos (by simpa using h), List.takeWhile_cons_of_neg (by simp [hb]),
      List.append_nil]
  have hdrop : (w ++ b :: rest).dropWhile (!isBlank ·) = b :: rest := by
    rw [List.dropWhile_append_of_pos (by simpa using h), List.dropWhile_cons_of_neg (by simp [hb])]
  rw [splitWord, hstart, htake, hdrop, trimStart, List.dropWhile_cons_of_pos hb]
  rfl

end Text

end RamFs
