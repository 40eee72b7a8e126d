import RamFs.Console.LineEditor

/-!
# RamFs.Proofs.Console.Keys

Lines as they are entered.  An input is cut after every octet that ends a line
(`enteredLines`); what is left has no such octet.  Reading a line goes through its
keys one by one (`readFrom_key`) and stops at the octet that ends it, whatever
comes after (`readFrom_line`).
-/

namespace RamFs

namespace LineEditor

variable {limit : Nat} {echoes : Bool} {held keys input : Bytes} {b : UInt8}

/-! ## Keys -/

/-- The buffer after a key that does not end the line, the last octet first. -/
def press (limit : Nat) (held : Bytes) (b : UInt8) : Bytes :=
  if erases b then eraseLast held
  else if isIgnored b then held
  else if held.length < limit then b :: held
  else held

/-- What is shown for such a key, unless the console shows it by itself. -/
def keyEcho (limit : Nat) (held : Bytes) (b : UInt8) : Bytes :=
  if erases b then if held = [] then [] else eraseEcho
  else if isIgnored b then []
  else if held.length < limit then [b]
  else []

/-- What is shown for keys, one after another. -/
def keysEcho (limit : Nat) (echoes : Bool) : Bytes → Bytes → Bytes
  | _, [] => []
  | held, b :: keys =>
    (if echoes then keyEcho limit held b else []) ++ keysEcho limit echoes (press limit held b) keys

/-- **Step lemma**: a key that does not end the line changes the buffer, and the
line is read on. -/
theorem readFrom_key (h : endsLine b = false) : readFrom limit echoes held (b :: input) =
    (readFrom limit echoes (press limit held b) input).after
      (if echoes then keyEcho limit held b else []) := by
  have hquiet : ∀ r : Reading, r.after [] = r := fun r => by simp [Reading.after]
  rw [readFrom, press, keyEcho]
  cases echoes <;> grind

/-- **Run lemma**: a line is read up to the octet that ends it, and no further. -/
theorem readFrom_line (h : ∀ b ∈ keys, endsLine b = false) {last : UInt8}
    (hlast : endsLine last = true) : readFrom limit echoes held (keys ++ last :: input) =
      ⟨some (keys.foldl (press limit) held).reverse,
        keysEcho limit echoes held keys ++ if echoes then lineEndEcho else [], input⟩ := by
  induction keys generalizing held with
  | nil => simp [readFrom, hlast, keysEcho]
  | cons b keys ih =>
      have hb := h b List.mem_cons_self
      have hkeys : ∀ k ∈ keys, endsLine k = false := fun k hk => h k (List.mem_cons_of_mem b hk)
      rw [List.cons_append, readFrom_key hb, ih hkeys]
      simp [Reading.after, keysEcho]

/-- A line that nothing ends is read to the end of the input. -/
theorem readFrom_open (h : ∀ b ∈ keys, endsLine b = false) : readFrom limit echoes held keys =
    ⟨if keys.foldl (press limit) held = [] then none
      else some (keys.foldl (press limit) held).reverse, keysEcho limit echoes held keys, []⟩ := by
  induction keys generalizing held with
  | nil => rfl
  | cons b keys ih =>
      have hb := h b List.mem_cons_self
      have hkeys : ∀ k ∈ keys, endsLine k = false := fun k hk => h k (List.mem_cons_of_mem b hk)
      rw [readFrom_key hb, ih hkeys]
      rfl

/-! ## Entered lines -/

/-- A line as it is entered: its keys and the octet that ends it. -/
structure EnteredLine where
  keys : Bytes
  last : UInt8
  unended : ∀ b ∈ keys, endsLine b = false
  ended : endsLine last = true

namespace EnteredLine

/-- The octets that enter it. -/
def bytes (e : EnteredLine) : Bytes := e.keys ++ [e.last]

/-- The octets of the line that is entered, where a line has at most `limit`. -/
def line (limit : Nat) (e : EnteredLine) : Bytes := (e.keys.foldl (press limit) []).reverse

/-- What is shown while it is entered. -/
def echo (limit : Nat) (echoes : Bool) (e : EnteredLine) : Bytes :=
  keysEcho limit echoes [] e.keys ++ if echoes then lineEndEcho else []

/-- The line with one more key before the others. -/
def press (b : UInt8) (h : endsLine b = false) (e : EnteredLine) : EnteredLine where
  keys := b :: e.keys
  last := e.last
  unended := by simpa [h] using e.unended
  ended := e.ended

/-- What comes after an entered line is left unread. -/
theorem read_bytes_append (e : EnteredLine) (input : Bytes) :
    read limit echoes (e.bytes ++ input) = ⟨some (e.line limit), e.echo limit echoes, input⟩ := by
  rw [read, bytes, List.append_assoc]
  exact readFrom_line e.unended e.ended

end EnteredLine

/-! ## Inputs -/

/-- The lines that an input enters, and the keys of the line that nothing ends. -/
def enteredLines : Bytes → List EnteredLine × Bytes
  | [] => ([], [])
  | b :: input =>
    if h : endsLine b = true then
      (⟨[], b, by simp, h⟩ :: (enteredLines input).1, (enteredLines input).2)
    else match enteredLines input with
      | ([], keys) => ([], b :: keys)
      | (e :: es, keys) => (e.press b (by simpa using h) :: es, keys)

/-- No octet is lost. -/
theorem bytes_enteredLines (input : Bytes) :
    (enteredLines input).1.flatMap EnteredLine.bytes ++ (enteredLines input).2 = input := by
  induction input with
  | nil => rfl
  | cons b input ih =>
      rw [enteredLines]
      split
      case isTrue h => simpa [EnteredLine.bytes] using ih
      case isFalse h =>
        cases hes : enteredLines input with
        | mk es keys =>
            rw [hes] at ih
            cases es with
            | nil => simpa using ih
            | cons e es => simpa [EnteredLine.bytes, EnteredLine.press] using ih

/-- The keys that are left end no line. -/
theorem endsLine_of_mem_enteredLines (h : b ∈ (enteredLines input).2) : endsLine b = false := by
  induction input with
  | nil => contradiction
  | cons k input ih =>
      rw [enteredLines] at h
      split at h
      case isTrue => exact ih h
      case isFalse hk =>
        cases hes : enteredLines input with
        | mk es keys =>
            rw [hes] at h ih
            cases es with
            | nil =>
                obtain rfl | hm := List.mem_cons.mp h
                · simpa using hk
                · exact ih hm
            | cons e es => exact ih h

/-- Nothing is left of an input that ends with the end of a line. -/
theorem keys_enteredLines {last : UInt8} (h : input.getLast? = some last)
    (hlast : endsLine last = true) : (enteredLines input).2 = [] := by
  cases hkeys : (enteredLines input).2 with
  | nil => rfl
  | cons k keys =>
      have hmem : last ∈ (enteredLines input).2 := by
        rw [← bytes_enteredLines input, hkeys, List.getLast?_append] at h
        rw [hkeys]
        exact List.mem_of_getLast? (by simpa using h)
      rw [endsLine_of_mem_enteredLines hmem] at hlast
      contradiction

end LineEditor

end RamFs
