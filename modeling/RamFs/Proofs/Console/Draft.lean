import RamFs.Proofs.Console.Characters
import RamFs.Proofs.Console.Keys

/-!
# RamFs.Proofs.Console.Draft

The line reader by characters.  It takes octets, and drops those past its limit one by
one; so a character that is typed where only some of its octets fit is held in part.
A `Draft` is such a buffer seen by characters: the text that is held whole, and at most
one character after it, of which the first octets fill the buffer.

One typed character acts on the octets held as it does on the draft (`press_encodeChar`),
and so do all of them, one after another (`press_encode`).  A character held in part is
read back as a replacement (`decode_octets`).
-/

namespace RamFs

namespace LineEditor

open Text (encode width decode replacement length_encode encode_cons width_dropLast_le
  encodeChar_eq_cons encodeChar_cases decode_of_part decode_encode_append)

/-! ## Strokes -/

/-- What a key is for. -/
inductive Stroke
  | lineEnd
  | takeBack
  | nothing
  | print
deriving DecidableEq, Repr

/-- What the octet or the character of value `n` is for. -/
def strokeOf (n : Nat) : Stroke :=
  if n = 0x0D ∨ n = 0x0A then .lineEnd
  else if n = 0x08 ∨ n = 0x7F then .takeBack
  else if n < 0x20 then .nothing
  else .print

/-- Octets are told apart as the reader does. -/
theorem strokeOf_octet (b : UInt8) : strokeOf b.toNat =
    if endsLine b then .lineEnd
    else if erases b then .takeBack
    else if isIgnored b then .nothing
    else .print := by
  obtain ⟨b⟩ := b
  revert b
  decide +kernel

theorem endsLine_iff {b : UInt8} : endsLine b = true ↔ strokeOf b.toNat = .lineEnd := by
  grind [strokeOf_octet]

/-- The octets of a character are for the same as the character. -/
theorem strokeOf_encodeChar {c : Char} {b : UInt8} (h : b ∈ String.utf8EncodeChar c) :
    strokeOf b.toNat = strokeOf c.toNat := by
  rcases encodeChar_cases c with ⟨x, hx, hc⟩ | ⟨hc, hall⟩
  · rw [hx, List.mem_singleton] at h
    rw [h, hc]
  · have hb := hall b h
    grind [strokeOf]

/-- A character that is not typed to be shown has one octet. -/
theorem encodeChar_of_not_print {c : Char} (h : strokeOf c.toNat ≠ .print) :
    ∃ b, String.utf8EncodeChar c = [b] ∧ strokeOf b.toNat = strokeOf c.toNat := by
  rcases encodeChar_cases c with ⟨x, hx, hc⟩ | ⟨hc, -⟩
  · exact ⟨x, hx, by rw [hc]⟩
  · grind [strokeOf]

/-! ## Keys on octets -/

variable {limit : Nat} {held bs : Bytes} {b : UInt8} {c : Char}

/-- The buffer after an octet, by what it is for. -/
theorem press_eq (limit : Nat) (held : Bytes) (b : UInt8) : press limit held b =
    match strokeOf b.toNat with
    | .takeBack => eraseLast held
    | .print => if held.length < limit then b :: held else held
    | _ => held := by
  rw [press]
  grind [strokeOf_octet, endsLine, erases, isIgnored]

/-- Octets that are shown fill the buffer up to its limit. -/
theorem press_prints (h : ∀ b ∈ bs, strokeOf b.toNat = .print) :
    bs.foldl (press limit) held = (bs.take (limit - held.length)).reverse ++ held := by
  induction bs generalizing held with
  | nil => simp
  | cons b bs ih =>
    have hb := h b List.mem_cons_self
    have hbs : ∀ x ∈ bs, strokeOf x.toNat = .print := fun x hx => h x (List.mem_cons_of_mem b hx)
    rw [List.foldl_cons, press_eq, ih hbs]
    simp only [hb]
    split
    case isTrue hroom =>
      rw [List.length_cons, show limit - held.length = limit - (held.length + 1) + 1 by omega]
      simp
    case isFalse hfull =>
      rw [show limit - held.length = 0 by omega]
      simp

/-- The last character is taken back, be it held whole or in part. -/
theorem eraseLast_part {a : Bytes} (h : String.utf8EncodeChar c = a ++ bs) (ha : a ≠ []) :
    eraseLast (a.reverse ++ held) = held := by
  obtain ⟨first, others, hc, hfirst, hothers⟩ := encodeChar_eq_cons c
  cases a with
  | nil => contradiction
  | cons x a =>
    rw [hc, List.cons_append, List.cons.injEq] at h
    obtain ⟨rfl, rfl⟩ := h
    have ha : ∀ y ∈ a.reverse, isContinuation y = true := by simp_all
    simp [eraseLast, List.dropWhile_append_of_pos ha, hfirst]

/-! ## Drafts -/

/-- A line under way: the text that is held whole, and the character after it of which
only some octets fit. -/
structure Draft (limit : Nat) where
  text : Text
  cut : Option Char
  width_le : width text ≤ limit
  cut_spec : ∀ c ∈ cut, width text < limit ∧ limit < width text + c.utf8Size

namespace Draft

variable {d : Draft limit} {keys : Text}

/-- Nothing is held. -/
def blank (limit : Nat) : Draft limit := ⟨[], none, Nat.zero_le _, nofun⟩

/-- A text that is held whole. -/
def whole (t : Text) (h : width t ≤ limit) : Draft limit := ⟨t, none, h, nofun⟩

/-- A character is typed: it is held whole if there is room for it, in part if there is
room for some of its octets, and not at all if there is none. -/
def type (d : Draft limit) (c : Char) : Draft limit :=
  if hfits : d.cut = none ∧ width d.text + c.utf8Size ≤ limit then
    whole (d.text ++ [c]) (by simpa using hfits.2)
  else if hpart : d.cut = none ∧ width d.text < limit then
    { d with cut := some c, cut_spec := by grind }
  else d

/-- The last character is taken back. -/
def takeBack (d : Draft limit) : Draft limit :=
  if d.cut = none then whole d.text.dropLast (Nat.le_trans (width_dropLast_le d.text) d.width_le)
  else whole d.text d.width_le

/-- A key that does not end the line. -/
def enter (d : Draft limit) (c : Char) : Draft limit :=
  match strokeOf c.toNat with
  | .takeBack => d.takeBack
  | .print => d.type c
  | _ => d

/-- The draft after keys. -/
def ofKeys (limit : Nat) (keys : Text) : Draft limit := keys.foldl enter (blank limit)

/-- The octets that are held of the character that does not fit. -/
def part (d : Draft limit) : Bytes :=
  match d.cut with
  | none => []
  | some c => (String.utf8EncodeChar c).take (limit - width d.text)

/-- The octets that are held. -/
def octets (d : Draft limit) : Bytes := encode d.text ++ d.part

@[simp] theorem octets_blank : (blank limit).octets = [] := rfl

@[simp] theorem octets_whole {t : Text} (h : width t ≤ limit) : (whole t h).octets = encode t := by
  simp [octets, part, whole]

theorem octets_of_uncut (h : d.cut = none) : d.octets = encode d.text := by
  simp [octets, part, h]

theorem octets_of_cut (h : d.cut = some c) :
    d.octets = encode d.text ++ (String.utf8EncodeChar c).take (limit - width d.text) := by
  simp [octets, part, h]

/-- Of a character that is held in part there are octets that are held, and others. -/
theorem split_of_cut (h : d.cut = some c) : ∃ a b, String.utf8EncodeChar c = a ++ b ∧
    a ≠ [] ∧ b ≠ [] ∧ d.octets = encode d.text ++ a := by
  have hspec := d.cut_spec c h
  refine ⟨_, _, (List.take_append_drop (limit - width d.text) _).symm, ?_, ?_, octets_of_cut h⟩
  · apply List.ne_nil_of_length_pos
    rw [List.length_take, String.length_utf8EncodeChar]
    omega
  · apply List.ne_nil_of_length_pos
    rw [List.length_drop, String.length_utf8EncodeChar]
    omega

/-- A character that is held in part fills the buffer. -/
theorem length_octets (d : Draft limit) :
    d.octets.length = if d.cut = none then width d.text else limit := by
  cases hc : d.cut with
  | none => simp [octets_of_uncut hc, length_encode]
  | some c =>
    have hspec := d.cut_spec c hc
    rw [octets_of_cut hc, if_neg (by simp), List.length_append, length_encode, List.length_take,
      String.length_utf8EncodeChar]
    omega

theorem length_octets_le (d : Draft limit) : d.octets.length ≤ limit := by
  have hle := d.width_le
  grind [length_octets]

/-- **Reading a draft**: what is held whole is read as it was typed, and what is held of
the character after it as a replacement. -/
theorem decode_octets (d : Draft limit) :
    decode d.octets = d.text ++ if d.cut = none then [] else [replacement] := by
  cases hc : d.cut with
  | none => simp [octets_of_uncut hc]
  | some c =>
    obtain ⟨a, b, hsplit, ha, hb, hoctets⟩ := split_of_cut hc
    rw [hoctets, decode_encode_append, decode_of_part hsplit ha hb, if_neg (by simp)]

-- one octet of the last character fits
example : decode (ofKeys 4 "aé€".toList).octets = ['a', 'é', replacement] := by decide +kernel

/-! ### Keys on drafts -/

/-- Typing a character adds the octets of it that fit. -/
theorem octets_type (d : Draft limit) (c : Char) :
    (d.type c).octets = d.octets ++ (String.utf8EncodeChar c).take (limit - d.octets.length) := by
  have hlength := d.length_octets
  have hsize : (String.utf8EncodeChar c).length = c.utf8Size := by simp
  unfold type
  split
  case isTrue hfits =>
    rw [if_pos hfits.1] at hlength
    rw [hlength, List.take_of_length_le (by omega), octets_of_uncut hfits.1]
    simp
  split
  case isTrue hpart =>
    rw [if_pos hpart.1] at hlength
    rw [hlength, octets_of_uncut hpart.1, octets_of_cut rfl]
  case isFalse hno hfull =>
    have hroom : limit - d.octets.length = 0 := by grind
    simp [hroom]

/-- Taking a character back takes back its octets, be they all of them or not. -/
theorem octets_takeBack (d : Draft limit) :
    d.takeBack.octets.reverse = eraseLast d.octets.reverse := by
  unfold takeBack
  cases hc : d.cut with
  | some c =>
    obtain ⟨a, b, hsplit, ha, -, hoctets⟩ := split_of_cut hc
    rw [hoctets, List.reverse_append, eraseLast_part hsplit ha, if_neg (by simp), octets_whole]
  | none =>
    rw [octets_of_uncut hc, if_pos rfl, octets_whole]
    rcases List.eq_nil_or_concat d.text with ht | ⟨t, c, ht⟩
    · simp [ht, eraseLast]
    · -- the last character is held whole: nothing is missing of it
      have hsplit : String.utf8EncodeChar c = String.utf8EncodeChar c ++ [] := by simp
      simp [ht, eraseLast_part hsplit String.utf8EncodeChar_ne_nil]

/-- **Step lemma**: the octets of a typed character do to the buffer what the character
does to the draft. -/
theorem press_encodeChar (d : Draft limit) (c : Char) :
    (String.utf8EncodeChar c).foldl (press limit) d.octets.reverse =
      (d.enter c).octets.reverse := by
  by_cases hprint : strokeOf c.toNat = .print
  · have hbs : ∀ b ∈ String.utf8EncodeChar c, strokeOf b.toNat = .print := fun b hb =>
      (strokeOf_encodeChar hb).trans hprint
    rw [press_prints hbs, enter, hprint, octets_type]
    simp
  -- any other character is a single octet, and is one key
  · obtain ⟨b, hb, hbc⟩ := encodeChar_of_not_print hprint
    rw [hb, List.foldl_cons, List.foldl_nil, press_eq, hbc, enter]
    cases hs : strokeOf c.toNat with
    | print => contradiction
    | takeBack => exact (octets_takeBack d).symm
    | nothing => rfl
    | lineEnd => rfl

/-- **Run lemma**: so do the octets of typed characters, one after another. -/
theorem press_encode (d : Draft limit) (keys : Text) :
    (encode keys).foldl (press limit) d.octets.reverse = (keys.foldl enter d).octets.reverse := by
  induction keys generalizing d with
  | nil => rfl
  | cons c keys ih => rw [encode_cons, List.foldl_append, press_encodeChar, ih, List.foldl_cons]

/-- The line that typed characters give. -/
theorem line_encode (limit : Nat) (keys : Text) :
    ((encode keys).foldl (press limit) []).reverse = (ofKeys limit keys).octets := by
  have hrun := press_encode (blank limit) keys
  rw [octets_blank, List.reverse_nil] at hrun
  rw [hrun, List.reverse_reverse, ofKeys]

/-! ### What is held was typed -/

/-- The characters that are held, whole or in part. -/
def chars (d : Draft limit) : Text := d.text ++ d.cut.toList

theorem sublist_enter (d : Draft limit) (c : Char) :
    (d.enter c).chars.Sublist (d.chars ++ [c]) := by
  unfold enter
  split
  case h_1 =>
    have hback : d.takeBack.chars.Sublist d.chars := by
      unfold takeBack chars
      split
      · simp [whole, List.dropLast_sublist, *]
      · simp [whole]
    exact hback.trans (List.sublist_append_left _ _)
  case h_2 =>
    unfold type
    split
    · simp [chars, whole, *]
    split
    · simp [chars, *]
    · exact List.sublist_append_left _ _
  case h_3 => exact List.sublist_append_left _ _

/-- Every character that is held was typed, in the order they are held. -/
theorem sublist_ofKeys (limit : Nat) (keys : Text) : (ofKeys limit keys).chars.Sublist keys := by
  have hrun : ∀ (d : Draft limit), (keys.foldl enter d).chars.Sublist (d.chars ++ keys) := by
    induction keys with
    | nil => simp
    | cons c keys ih =>
      intro d
      have hstep := (sublist_enter d c).append_right keys
      simpa using (ih (d.enter c)).trans hstep
  exact hrun (blank limit)

end Draft

/-! ## Typed lines -/

/-- Whether a character ends a line. -/
def isLineEnd (c : Char) : Bool := strokeOf c.toNat == .lineEnd

/-- Keys that stay on one line. -/
def Unended (keys : Text) : Prop := ∀ c ∈ keys, isLineEnd c = false

instance (keys : Text) : Decidable (Unended keys) := List.decidableBAll _ keys

variable {keys : Text}

/-- The octets of such keys end no line either. -/
theorem Unended.endsLine_encode (h : Unended keys) : ∀ b ∈ encode keys, endsLine b = false := by
  intro b hb
  obtain ⟨c, hc, hbc⟩ := List.mem_flatMap.mp hb
  have hstroke : strokeOf c.toNat ≠ .lineEnd := by simpa [isLineEnd] using h c hc
  rw [← Bool.not_eq_true, endsLine_iff, strokeOf_encodeChar hbc]
  exact hstroke

/-- A character that ends a line has one octet, which ends it. -/
theorem encodeChar_of_isLineEnd (h : isLineEnd c = true) :
    ∃ b, String.utf8EncodeChar c = [b] ∧ endsLine b = true := by
  have hstroke : strokeOf c.toNat = .lineEnd := by simpa [isLineEnd] using h
  obtain ⟨b, hb, hbc⟩ := encodeChar_of_not_print (c := c) (by simp [hstroke])
  exact ⟨b, hb, endsLine_iff.mpr (hbc.trans hstroke)⟩

/-- A typed line is read up to the octet that ends it. -/
theorem read_typed_line (limit : Nat) (echoes : Bool) (h : Unended keys) {last : UInt8}
    (hlast : endsLine last = true) (rest : Bytes) :
    read limit echoes (encode keys ++ last :: rest) =
      ⟨some (Draft.ofKeys limit keys).octets,
        keysEcho limit echoes [] (encode keys) ++ if echoes then lineEndEcho else [], rest⟩ := by
  rw [read, readFrom_line h.endsLine_encode hlast, Draft.line_encode]

/-- A typed line that nothing ends is read to the end of the input. -/
theorem read_typed_open (limit : Nat) (echoes : Bool) (h : Unended keys) :
    read limit echoes (encode keys) =
      ⟨if (Draft.ofKeys limit keys).octets = [] then none
        else some (Draft.ofKeys limit keys).octets,
        keysEcho limit echoes [] (encode keys), []⟩ := by
  rw [read, readFrom_open h.endsLine_encode, ← Draft.line_encode]
  simp

end LineEditor

end RamFs
