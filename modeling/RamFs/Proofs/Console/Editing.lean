import Mathlib.Data.List.Infix
import RamFs.Proofs.Console.Draft
import RamFs.Proofs.Session.Loop

/-!
# RamFs.Proofs.Console.Editing

Editing by characters.  An editor that knows of texts only, and of no limit, adds a
typed character at the end of its text and takes the last character back (`edited`).
While its text does not outgrow the limit (`Fits`), the line reader holds the octets of
just that text, so both give the same line (`editing_is_by_characters`): for any octets
of the characters, for any way the line ends, and whatever an earlier line has left in
the buffer.
-/

namespace RamFs

namespace Kernel

namespace Program

open LineEditor (limitOf defaultCapacity read)

variable {capacity : Nat} {echoes : Bool} {s : State} {input : Bytes}

/-- A call of a line reader with a buffer of the given size: the buffer is cleared, a
line is read into it, and its octets are read as a text. -/
noncomputable def readText (capacity : Nat) (echoes : Bool) : Program (Option Text) := do
  hold []
  let line ← readOn (limitOf capacity) echoes
  return line.map Text.decode

/-- A call gives the text of the line that waits, and leaves what comes after it. -/
theorem exec_readText (capacity : Nat) (echoes : Bool) (h : s.console.pending = input) :
    ∃ held, exec (readText capacity echoes) s = some ((read (limitOf capacity) echoes input).text,
      s.after held ⟨s.volume, [.write (read (limitOf capacity) echoes input).echo],
        (read (limitOf capacity) echoes input).rest⟩) := by
  obtain ⟨held, hread⟩ :=
    exec_readOn (s := { s with held := [] }) (limitOf capacity) echoes h
  refine ⟨held, ?_⟩
  simp [readText, hread, LineEditor.read, LineEditor.Reading.text, State.after]

end Program

end Kernel

namespace LineEditor

open Text (encode width decode width_dropLast_le)
open Kernel.Program (readText exec exec_readText)

variable {limit : Nat} {echoes : Bool} {keys t : Text} {c : Char}

/-! ## The editor of texts -/

/-- A key that does not end the line. -/
def edit (t : Text) (c : Char) : Text :=
  match strokeOf c.toNat with
  | .takeBack => t.dropLast
  | .print => t ++ [c]
  | _ => t

/-- The text after keys. -/
def edited (keys : Text) : Text := keys.foldl edit []

@[simp] theorem edited_nil : edited [] = [] := rfl

@[simp] theorem edited_append (keys : Text) (c : Char) :
    edited (keys ++ [c]) = edit (edited keys) c := by
  simp [edited]

/-- Only what is shown makes the text wider. -/
theorem width_edit_le (h : strokeOf c.toNat ≠ .print) : width (edit t c) ≤ width t := by
  unfold edit
  cases hs : strokeOf c.toNat with
  | print => contradiction
  | takeBack => exact width_dropLast_le t
  | nothing => exact Nat.le_refl _
  | lineEnd => exact Nat.le_refl _

/-- The text is within the limit after each character that is shown. -/
def Fits (limit : Nat) (keys : Text) : Prop :=
  ∀ shown c, shown ++ [c] <+: keys → strokeOf c.toNat = .print →
    width (edited (shown ++ [c])) ≤ limit

/-- So it is within the limit all the time. -/
theorem fits_iff : Fits limit keys ↔ ∀ shown ∈ keys.inits, width (edited shown) ≤ limit := by
  simp only [List.mem_inits]
  constructor
  · intro h shown
    induction shown using List.reverseRecOn with
    | nil => simp
    | append_singleton shown c ih =>
      intro hpre
      by_cases hc : strokeOf c.toNat = .print
      · exact h shown c hpre hc
      · have hle := ih ((List.prefix_append shown [c]).trans hpre)
        have hedit := width_edit_le (t := edited shown) hc
        rw [edited_append]
        omega
  · intro h shown c hpre _
    exact h _ hpre

instance (limit : Nat) (keys : Text) : Decidable (Fits limit keys) :=
  decidable_of_iff _ fits_iff.symm

/-- A line that fits takes no more octets than the limit. -/
theorem Fits.width_le (h : Fits limit keys) : width (edited keys) ≤ limit :=
  fits_iff.mp h keys (by simp)

theorem Fits.of_append (h : Fits limit (keys ++ [c])) : Fits limit keys := by
  intro shown x hpre
  exact h shown x (hpre.trans (List.prefix_append keys [c]))

/-! ## Both editors -/

/-- **Step lemma**: a draft that is held whole is edited as its text is, if that fits. -/
theorem enter_whole (h : width t ≤ limit) (hfits : width (edit t c) ≤ limit) :
    (Draft.whole t h).enter c = Draft.whole (edit t c) hfits := by
  cases hs : strokeOf c.toNat with
  | print =>
    have hedit : edit t c = t ++ [c] := by simp [edit, hs]
    have hroom : width t + c.utf8Size ≤ limit := by simpa [hedit] using hfits
    simp [Draft.enter, Draft.type, Draft.whole, hs, hedit, hroom]
  | takeBack => simp [Draft.enter, Draft.takeBack, Draft.whole, edit, hs]
  | nothing => simp [Draft.enter, edit, hs]
  | lineEnd => simp [Draft.enter, edit, hs]

/-- **Run lemma**: a text that fits all the time is held whole. -/
theorem ofKeys_eq (h : Fits limit keys) :
    Draft.ofKeys limit keys = Draft.whole (edited keys) h.width_le := by
  induction keys using List.reverseRecOn with
  | nil => rfl
  | append_singleton keys c ih =>
    have hstep : Draft.ofKeys limit (keys ++ [c]) = (Draft.ofKeys limit keys).enter c := by
      simp [Draft.ofKeys]
    have hfits : width (edit (edited keys) c) ≤ limit := by simpa using h.width_le
    rw [hstep, ih h.of_append, enter_whole h.of_append.width_le hfits]
    simp

/-! ## Calls of the line reader -/

/-- From the input, a call gives the text and leaves the rest: by the function that reads a
line, and in place, whatever the state of the kernel and whatever its buffer holds. -/
def CallGives (capacity : Nat) (echoes : Bool) (input : Bytes) (text : Option Text)
    (rest : Bytes) : Prop :=
  (read (limitOf capacity) echoes input).text = text ∧
    (read (limitOf capacity) echoes input).rest = rest ∧
    ∀ s : Kernel.State, s.console.pending = input →
      ∃ t, exec (readText capacity echoes) s = some (text, t) ∧ t.console.pending = rest

/-- A call works in place as the function does. -/
theorem callGives_of_read {capacity : Nat} {input rest : Bytes} {text : Option Text}
    (htext : (read (limitOf capacity) echoes input).text = text)
    (hrest : (read (limitOf capacity) echoes input).rest = rest) :
    CallGives capacity echoes input text rest := by
  subst htext hrest
  refine ⟨rfl, rfl, fun s h => ?_⟩
  obtain ⟨held, hcall⟩ := exec_readText capacity echoes h
  exact ⟨_, hcall, rfl⟩

/-- **Editing by characters**: where the text fits after each character that is shown, a
call gives the text of the editor of texts, and takes just the octets of the keys and
the one that ends the line.  At the end of the input it gives no text if there is none. -/
theorem editing_is_by_characters (capacity : Nat) (echoes : Bool) (keys : Text)
    (hkeys : Unended keys) (hfits : Fits (limitOf capacity) keys) :
    (∀ last rest, endsLine last = true →
      CallGives capacity echoes (encode keys ++ last :: rest) (some (edited keys)) rest) ∧
    CallGives capacity echoes (encode keys)
      (if edited keys = [] then none else some (edited keys)) [] := by
  have hheld : (Draft.ofKeys (limitOf capacity) keys).octets = encode (edited keys) := by
    rw [ofKeys_eq hfits, Draft.octets_whole]
  constructor
  · intro last rest hlast
    have hread := read_typed_line (limitOf capacity) echoes hkeys hlast rest
    rw [hheld] at hread
    exact callGives_of_read (by simp [hread, Reading.text]) (by rw [hread])
  · have hread := read_typed_open (limitOf capacity) echoes hkeys
    simp only [hheld, Text.encode_eq_nil_iff] at hread
    refine callGives_of_read ?_ (by rw [hread])
    rw [hread, Reading.text]
    split <;> simp

/-- At a limit of six octets: with nothing to take back at first, a character of three octets
taken back, a control octet, and two characters that fill the line; ended or not.  And with
all that was typed taken back before the input ends. -/
theorem editing_is_by_characters_at_six :
    let keys := "\x7fé€\x08\x1b😀".toList
    let gone := "é€\x7f\t\x08".toList
    CallGives 7 true (encode keys ++ 0x0D :: [0x0A, 0x78]) (some ['é', '😀']) [0x0A, 0x78] ∧
      CallGives 7 true (encode keys) (some ['é', '😀']) [] ∧
      CallGives 7 false (encode gone) none [] := by
  intro keys gone
  have hkeys : Unended keys := by decide +kernel
  have hgone : Unended gone := by decide +kernel
  have hfits : Fits (limitOf 7) keys := by decide +kernel
  have hfits' : Fits (limitOf 7) gone := by decide +kernel
  obtain ⟨hended, hopen⟩ := editing_is_by_characters 7 true keys hkeys hfits
  obtain ⟨-, hnothing⟩ := editing_is_by_characters 7 false gone hgone hfits'
  have htext : edited keys = ['é', '😀'] := by decide +kernel
  have hnone : edited gone = [] := by decide +kernel
  rw [htext] at hended hopen
  rw [hnone] at hnothing
  exact ⟨hended 0x0D [0x0A, 0x78] rfl, hopen, hnothing⟩

end LineEditor

end RamFs
