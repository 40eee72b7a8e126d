import RamFs.Proofs.Console.Keys

/-!
# RamFs.Proofs.Console.Screen

What is shown while a line is read.  A `Screen` is a sequence of marks, each an octet or
an erasure, and perhaps the end of the line after them; its octets are those of no other
screen (`bytes_inj`).  Carrying the marks out on a buffer of its own (`Screen.buffer`)
gives the line that is read (`screen_shows_line`): no key is shown without being held,
and none is held or taken back without being shown.
-/

namespace RamFs

namespace LineEditor

open Text (decode)

variable {limit : Nat} {held keys input line : Bytes} {b : UInt8}

/-! ## Screens -/

/-- A single thing that is shown. -/
inductive Mark
  | octet (b : UInt8) (plain : 0x20 ≤ b ∧ b ≠ 0x7F)
  | erasure
deriving DecidableEq

/-- The octets of a mark. -/
def Mark.bytes : Mark → Bytes
  | .octet b _ => [b]
  | .erasure => [0x08, 0x20, 0x08]

/-- The first octet tells a mark from the others, and from the end of the line. -/
theorem Mark.bytes_append_inj {m n : Mark} {bs bs' : Bytes} (h : m.bytes ++ bs = n.bytes ++ bs') :
    m = n ∧ bs = bs' := by
  have hplain : ∀ b : UInt8, 0x20 ≤ b → b ≠ 0x08 := by
    rintro b hb rfl
    exact absurd hb (by decide)
  cases m with
  | octet b plain =>
    cases n with
    | octet b' plain' => simpa [Mark.bytes] using h
    | erasure => exact absurd (List.cons.inj h).1 (hplain b plain.1)
  | erasure =>
    cases n with
    | octet b plain => exact absurd (List.cons.inj h).1.symm (hplain b plain.1)
    | erasure => simpa [Mark.bytes] using h

theorem Mark.bytes_append_ne (m : Mark) (bs : Bytes) (ended : Bool) :
    m.bytes ++ bs ≠ if ended then [0x0D, 0x0A] else [] := by
  have hplain : ∀ b : UInt8, 0x20 ≤ b → b ≠ 0x0D := by
    rintro b hb rfl
    exact absurd hb (by decide)
  cases m <;> cases ended <;> simp_all [Mark.bytes]

/-- What is shown for a line: marks, and the end of the line if it was ended. -/
structure Screen where
  marks : List Mark
  ended : Bool
deriving DecidableEq

/-- The octets of a screen. -/
def Screen.bytes (s : Screen) : Bytes :=
  s.marks.flatMap Mark.bytes ++ if s.ended then [0x0D, 0x0A] else []

theorem Screen.bytes_nil (ended : Bool) :
    Screen.bytes ⟨[], ended⟩ = if ended then [0x0D, 0x0A] else [] := rfl

theorem Screen.bytes_cons (m : Mark) (marks : List Mark) (ended : Bool) :
    Screen.bytes ⟨m :: marks, ended⟩ = m.bytes ++ Screen.bytes ⟨marks, ended⟩ := by
  simp [Screen.bytes]

/-- **Screens are told apart by their octets.** -/
theorem Screen.bytes_inj {s t : Screen} (h : s.bytes = t.bytes) : s = t := by
  obtain ⟨marks, ended⟩ := s
  obtain ⟨marks', ended'⟩ := t
  induction marks generalizing marks' with
  | nil =>
    cases marks' with
    | nil => cases ended <;> cases ended' <;> simp_all [Screen.bytes]
    | cons n marks' =>
      rw [Screen.bytes_nil, Screen.bytes_cons] at h
      exact absurd h.symm (n.bytes_append_ne _ ended)
  | cons m marks ih =>
    rw [Screen.bytes_cons] at h
    cases marks' with
    | nil => exact absurd h (m.bytes_append_ne _ ended')
    | cons n marks' =>
      rw [Screen.bytes_cons] at h
      obtain ⟨rfl, hrest⟩ := Mark.bytes_append_inj h
      simpa using ih marks' hrest

/-! ## Replaying -/

/-- Takes the last octet off a buffer, and one more as long as the one taken off continues
a character and something is left.  The last octet comes first. -/
def takeOff : Bytes → Bytes
  | [] => []
  | b :: before => if isContinuation b ∧ before ≠ [] then takeOff before else before

/-- Carries a mark out on a buffer whose last octet comes first. -/
def Mark.replay (buffer : Bytes) : Mark → Bytes
  | .octet b _ => b :: buffer
  | .erasure => takeOff buffer

/-- The buffer after all marks. -/
def Screen.buffer (s : Screen) : Bytes := (s.marks.foldl Mark.replay []).reverse

/-- What is taken off is a character: the octets that continue it and the one before them. -/
theorem takeOff_eq_eraseLast (held : Bytes) : takeOff held = eraseLast held := by
  induction held with
  | nil => rfl
  | cons b before ih =>
    by_cases hb : isContinuation b = true ∧ before ≠ []
    · have hskip : eraseLast (b :: before) = eraseLast before := by simp [eraseLast, hb.1]
      rw [takeOff, if_pos hb, ih, hskip]
    · rw [takeOff, if_neg hb, eraseLast]
      cases hc : isContinuation b with
      | false => simp [hc]
      | true => simp_all

/-! ## What keys show -/

/-- **Step lemma**: a key shows a mark or nothing, and that does to a buffer what the key
does to the line. -/
theorem exists_marks_key (limit : Nat) (held : Bytes) (b : UInt8) : ∃ marks : List Mark,
    marks.flatMap Mark.bytes = keyEcho limit held b ∧
      marks.foldl Mark.replay held = press limit held b := by
  unfold keyEcho press
  by_cases he : erases b = true
  · by_cases hheld : held = []
    · exact ⟨[], by simp [he, hheld], by simp [he, hheld, eraseLast]⟩
    · exact ⟨[.erasure], by simp [he, hheld, Mark.bytes, eraseEcho],
        by simp [he, Mark.replay, takeOff_eq_eraseLast]⟩
  by_cases hi : isIgnored b = true
  · exact ⟨[], by simp [he, hi], by simp [he, hi]⟩
  by_cases hroom : held.length < limit
  · have hplain : 0x20 ≤ b ∧ b ≠ 0x7F := by simp_all [erases, isIgnored]
    exact ⟨[.octet b hplain], by simp [he, hi, hroom, Mark.bytes],
      by simp [he, hi, hroom, Mark.replay]⟩
  · exact ⟨[], by simp [he, hi, hroom], by simp [he, hi, hroom]⟩

/-- **Run lemma**: keys show marks that do to a buffer what the keys do to the line. -/
theorem exists_marks (limit : Nat) (held keys : Bytes) : ∃ marks : List Mark,
    marks.flatMap Mark.bytes = keysEcho limit true held keys ∧
      marks.foldl Mark.replay held = keys.foldl (press limit) held := by
  induction keys generalizing held with
  | nil => exact ⟨[], rfl, rfl⟩
  | cons b keys ih =>
    obtain ⟨first, hecho, hheld⟩ := exists_marks_key limit held b
    obtain ⟨others, hechoes, hrest⟩ := ih (press limit held b)
    refine ⟨first ++ others, ?_, ?_⟩
    · rw [List.flatMap_append, hecho, hechoes]
      rfl
    · rw [List.foldl_append, hheld, hrest]
      rfl

/-- Nothing is shown for keys on a console that shows them by itself. -/
theorem keysEcho_false (limit : Nat) (held keys : Bytes) : keysEcho limit false held keys = [] := by
  induction keys generalizing held with
  | nil => rfl
  | cons b keys ih => simp [keysEcho, ih]

/-! ## Lines -/

/-- An input has no end of a line, or keys before the first one. -/
theorem open_or_ended (input : Bytes) : (∀ b ∈ input, endsLine b = false) ∨
    ∃ keys last rest, input = keys ++ last :: rest ∧ (∀ b ∈ keys, endsLine b = false) ∧
      endsLine last = true := by
  cases h : input.find? endsLine with
  | none => exact Or.inl (by simpa using h)
  | some last =>
    obtain ⟨hlast, keys, rest, hsplit, hkeys⟩ := List.find?_eq_some_iff_append.mp h
    exact Or.inr ⟨keys, last, rest, hsplit, by simpa using hkeys, hlast⟩

/-- On a console that shows keys by itself, the same is read and nothing is shown. -/
theorem read_quiet (limit : Nat) (input : Bytes) :
    read limit false input = { read limit true input with echo := [] } := by
  rcases open_or_ended input with hopen | ⟨keys, last, rest, rfl, hkeys, hlast⟩
  · simp [read, readFrom_open hopen, keysEcho_false]
  · simp [read, readFrom_line hkeys hlast, keysEcho_false]

/-- What is shown for a line is a screen that gives the line. -/
theorem exists_screen (h : (read limit true input).line = some line) : ∃ s : Screen,
    s.bytes = (read limit true input).echo ∧ (s.ended = true ↔ ∃ b ∈ input, endsLine b = true) ∧
      s.buffer = line := by
  rcases open_or_ended input with hopen | ⟨keys, last, rest, rfl, hkeys, hlast⟩
  · obtain ⟨marks, hecho, hheld⟩ := exists_marks limit [] input
    rw [read, readFrom_open hopen] at h ⊢
    refine ⟨⟨marks, false⟩, ?_, ?_, ?_⟩
    · simp [Screen.bytes, hecho]
    · simpa using hopen
    · rw [Screen.buffer, hheld]
      grind
  · obtain ⟨marks, hecho, hheld⟩ := exists_marks limit [] keys
    rw [read, readFrom_line hkeys hlast] at h ⊢
    refine ⟨⟨marks, true⟩, ?_, ?_, ?_⟩
    · simp [Screen.bytes, hecho, lineEndEcho]
    · simpa using ⟨last, by simp, hlast⟩
    · rw [Screen.buffer, hheld]
      exact Option.some.inj h

/-- **The screen shows the line**: when a line is read, what is shown is a screen, of this
and no other way to take it apart, with the end of the line on it just if the line was
ended; carrying the marks of it out gives the octets of the line, and so its text.  A
console that shows keys by itself is shown nothing, and the same is read from it. -/
theorem screen_shows_line (capacity : Nat) (input : Bytes) :
    (∀ line, (read (limitOf capacity) true input).line = some line →
      ∃ s : Screen, (∀ t : Screen, t.bytes = (read (limitOf capacity) true input).echo ↔ t = s) ∧
        (s.ended = true ↔ ∃ b ∈ input, endsLine b = true) ∧ s.buffer = line ∧
        (read (limitOf capacity) true input).text = some (decode s.buffer)) ∧
      read (limitOf capacity) false input =
        { read (limitOf capacity) true input with echo := [] } := by
  refine ⟨fun line h => ?_, read_quiet _ input⟩
  obtain ⟨s, hbytes, hended, hbuffer⟩ := exists_screen h
  have hunique : ∀ t : Screen, t.bytes = (read (limitOf capacity) true input).echo ↔ t = s := by
    intro t
    constructor
    · intro ht
      exact Screen.bytes_inj (ht.trans hbytes.symm)
    · rintro rfl
      exact hbytes
  exact ⟨s, hunique, hended, hbuffer, by rw [hbuffer, Reading.text, h]; rfl⟩

/-- At a limit of three octets: a stray octet is taken back, a character of two octets and
one of one octet fill the line, one is lost, the last one held is taken back, and an octet
that no character begins with is held in its place. -/
theorem screen_shows_line_of_strays :
    let input : Bytes := [0x08, 0x80, 0x7F, 0xC3, 0xA9, 0x61, 0x62, 0x08, 0xFF, 0x1B, 0x0D, 0x0A]
    let echo : Bytes :=
      [0x80, 0x08, 0x20, 0x08, 0xC3, 0xA9, 0x61, 0x08, 0x20, 0x08, 0xFF, 0x0D, 0x0A]
    ∃ s : Screen, (∀ t : Screen, t.bytes = echo ↔ t = s) ∧ s.ended = true ∧
      decode s.buffer = ['é', Text.replacement] ∧
      read (limitOf 4) false input = ⟨some [0xC3, 0xA9, 0xFF], [], [0x0A]⟩ := by
  intro input echo
  have hread : read (limitOf 4) true input = ⟨some [0xC3, 0xA9, 0xFF], echo, [0x0A]⟩ := by
    decide +kernel
  obtain ⟨hshows, hquiet⟩ := screen_shows_line 4 input
  rw [hread] at hshows hquiet
  obtain ⟨s, hunique, hended, hbuffer, -⟩ := hshows _ rfl
  refine ⟨s, hunique, hended.mpr ⟨0x0D, by decide, rfl⟩, ?_, hquiet⟩
  rw [hbuffer]
  decide +kernel

end LineEditor

end RamFs
