import RamFs.Proofs.Console.Draft

/-!
# RamFs.Proofs.Console.Overflow

Typed lines that are longer than the line reader takes.  The lines that are read from a
typed text, call after call, are the pieces of the text between its line ends
(`linesRead_typed`).  What is held of a line always fits and is part of what was typed;
but the last character may be held in part, and is then read as a replacement, which is
wider than what it stands for.  So a line may show a character that nobody typed, and
may be wider than the limit; `typed_lines_faithful_iff` says exactly when it does not.
-/

namespace RamFs

namespace LineEditor

open Text (encode width decode replacement width_append)

variable {limit : Nat} {echoes : Bool} {input rest line shown : Bytes} {keys : Text}

/-! ## Line after line -/

/-- The lines that are read, call after call, until a call gives none. -/
def linesRead (limit : Nat) (echoes : Bool) (input : Bytes) : List Bytes :=
  match _h : (read limit echoes input).line with
  | none => []
  | some line => line :: linesRead limit echoes (read limit echoes input).rest
termination_by input.length
decreasing_by exact length_rest_lt _h

/-- A line that is read, and then the lines of the rest. -/
theorem linesRead_of_line (h : read limit echoes input = ⟨some line, shown, rest⟩) :
    linesRead limit echoes input = line :: linesRead limit echoes rest := by
  rw [linesRead]
  split <;> simp_all

theorem linesRead_of_none (h : (read limit echoes input).line = none) :
    linesRead limit echoes input = [] := by
  rw [linesRead]
  split <;> simp_all

/-! ## Typed lines -/

/-- A typed text is a line that nothing ends, or a line with its end and a typed text. -/
theorem typed_induct {P : Text → Prop} (nothing_ends : ∀ keys, Unended keys → P keys)
    (ends : ∀ keys last typed, Unended keys → isLineEnd last = true → P typed →
      P (keys ++ last :: typed)) (typed : Text) : P typed := by
  -- with the keys before it that are on the same line
  have hline : ∀ keys, Unended keys → P (keys ++ typed) := by
    induction typed with
    | nil =>
      intro keys h
      simpa using nothing_ends keys h
    | cons c typed ih =>
      intro keys h
      cases hc : isLineEnd c with
      | true => exact ends keys c typed h hc (by simpa using ih [] nofun)
      | false =>
        have hkeys : Unended (keys ++ [c]) := List.forall_mem_append.mpr ⟨h, by simpa using hc⟩
        simpa using ih (keys ++ [c]) hkeys
  exact hline [] nofun

/-- The keys of the lines of a typed text: the pieces between its line ends, without the
last piece if nothing is held of it. -/
def typedLines (limit : Nat) (typed : Text) : List Text :=
  (typed.splitOnP isLineEnd).dropLast ++
    (typed.splitOnP isLineEnd).getLast?.toList.filter fun keys =>
      (Draft.ofKeys limit keys).octets ≠ []

theorem typedLines_of_open (h : Unended keys) :
    typedLines limit keys = if (Draft.ofKeys limit keys).octets = [] then [] else [keys] := by
  rw [typedLines, List.splitOnP_eq_singleton h]
  split <;> simp_all

/-- The keys up to the end of a line, and then the lines of the rest. -/
theorem typedLines_of_ended (h : Unended keys) {last : Char} (hlast : isLineEnd last = true)
    (typed : Text) :
    typedLines limit (keys ++ last :: typed) = keys :: typedLines limit typed := by
  rw [typedLines, List.splitOnP_append_cons_of_forall_mem h last hlast, typedLines]
  have hne := List.splitOnP_ne_nil isLineEnd typed
  cases hs : typed.splitOnP isLineEnd with
  | nil => contradiction
  | cons piece pieces => simp

/-- **The lines of a typed text** are read one by one. -/
theorem linesRead_typed (limit : Nat) (echoes : Bool) (typed : Text) :
    linesRead limit echoes (encode typed) =
      (typedLines limit typed).map fun keys => (Draft.ofKeys limit keys).octets := by
  induction typed using typed_induct with
  | nothing_ends keys h =>
    have hread := read_typed_open limit echoes h
    rw [typedLines_of_open h]
    split
    case isTrue hblank =>
      rw [if_pos hblank] at hread
      rw [linesRead_of_none (by rw [hread])]
      rfl
    case isFalse hheld =>
      rw [if_neg hheld] at hread
      rw [linesRead_of_line hread, linesRead_of_none rfl]
      rfl
  | ends keys last typed h hlast ih =>
    obtain ⟨b, hb, hends⟩ := encodeChar_of_isLineEnd hlast
    have hread := read_typed_line limit echoes h hends (encode typed)
    rw [typedLines_of_ended h hlast, List.map_cons, ← ih, ← linesRead_of_line hread]
    simp [hb]

/-! ## Lines that show what was typed -/

/-- The text of the line that is read for some keys. -/
def lineOf (limit : Nat) (keys : Text) : Text := decode (Draft.ofKeys limit keys).octets

/-- A line that fits, and in which nothing is but what was typed. -/
def Faithful (limit : Nat) (keys line : Text) : Prop :=
  width line ≤ limit ∧ ∀ c ∈ line, c ∈ keys

/-- A line is faithful if all of it is held whole.  With a character held in part it only
happens to be: the replacement was typed as well, and there is room for it. -/
theorem faithful_lineOf_iff (limit : Nat) (keys : Text) :
    Faithful limit keys (lineOf limit keys) ↔ (Draft.ofKeys limit keys).cut = none ∨
      replacement ∈ keys ∧ width (Draft.ofKeys limit keys).text + width [replacement] ≤ limit := by
  have hchars := Draft.sublist_ofKeys limit keys
  rw [Faithful, lineOf, Draft.decode_octets]
  generalize Draft.ofKeys limit keys = d at hchars
  have htext : ∀ c ∈ d.text, c ∈ keys := fun c hc => hchars.subset (List.mem_append_left _ hc)
  by_cases hcut : d.cut = none
  · simpa [hcut] using ⟨d.width_le, htext⟩
  · rw [if_neg hcut, width_append, List.forall_mem_append, List.forall_mem_singleton]
    constructor
    · rintro ⟨hwidth, -, hmem⟩
      exact Or.inr ⟨hmem, hwidth⟩
    · rintro (hnone | ⟨hmem, hwidth⟩)
      · contradiction
      · exact ⟨hwidth, htext, hmem⟩

/-- **Typed lines at the limit**: whatever is typed, its lines are read one by one.  The
octets held of each are within the limit, and stand for some of the characters that were
typed on it, in order.  All of these are read as they were typed but for the last one, if
it is held in part: then a replacement is read, and unless that was typed as well and
there is room for it, the line is not faithful. -/
theorem typed_lines_faithful_iff (capacity : Nat) (echoes : Bool) (typed : Text) :
    (linesRead (limitOf capacity) echoes (encode typed)).map decode =
        (typedLines (limitOf capacity) typed).map (lineOf (limitOf capacity)) ∧
      ∀ keys, let d := Draft.ofKeys (limitOf capacity) keys
        d.octets.length ≤ limitOf capacity ∧ (d.text ++ d.cut.toList).Sublist keys ∧
          lineOf (limitOf capacity) keys = d.text ++ (if d.cut = none then [] else [replacement]) ∧
          (Faithful (limitOf capacity) keys (lineOf (limitOf capacity) keys) ↔ d.cut = none ∨
            replacement ∈ keys ∧ width d.text + width [replacement] ≤ limitOf capacity) := by
  constructor
  · rw [linesRead_typed, List.map_map]
    rfl
  · intro keys d
    exact ⟨d.length_octets_le, Draft.sublist_ofKeys _ keys, d.decode_octets,
      faithful_lineOf_iff _ keys⟩

/-- At a limit of four octets: a line that fits after a character is taken back, an empty
one, one in which a replacement was typed and taken back before a character is held in
part, and one that nothing ends, which is the only one that is not faithful. -/
theorem typed_lines_faithful_iff_at_four :
    let typed := "aé\x7f€b\r\n\uFFFD\x7fa😀\nab€\tcd".toList
    (linesRead (limitOf 5) true (encode typed)).map decode =
        [['a', '€'], [], ['a', replacement], ['a', 'b', replacement]] ∧
      Faithful (limitOf 5) "\uFFFD\x7fa😀".toList ['a', replacement] ∧
      ¬ Faithful (limitOf 5) "ab€\tcd".toList ['a', 'b', replacement] := by
  intro typed
  obtain ⟨hlines, hkeys⟩ := typed_lines_faithful_iff 5 true typed
  obtain ⟨-, -, -, hfits⟩ := hkeys "\uFFFD\x7fa😀".toList
  obtain ⟨-, -, -, hsplits⟩ := hkeys "ab€\tcd".toList
  have hline : lineOf (limitOf 5) "\uFFFD\x7fa😀".toList = ['a', replacement] := by decide +kernel
  have hline' : lineOf (limitOf 5) "ab€\tcd".toList = ['a', 'b', replacement] := by decide +kernel
  rw [hline] at hfits
  rw [hline'] at hsplits
  refine ⟨?_, hfits.mpr (Or.inr (by decide +kernel)), mt hsplits.mp (by decide +kernel)⟩
  rw [hlines]
  decide +kernel

/-- **A split character**: of the only character of the line just one octet fits.  A
character of three octets is read in its place, which nobody typed. -/
theorem split_character_is_replaced :
    let typed := ['é', '\r']
    (read (limitOf 2) true (encode typed)).text = some [replacement] ∧ limitOf 2 = 1 ∧
      width [replacement] = 3 ∧ replacement ∉ typed := by
  decide +kernel

end LineEditor

end RamFs
