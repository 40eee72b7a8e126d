/-!
# RamFs.Text.Utf8

Texts and their bytes.  A `Text` is a list of characters and `Bytes` is a list
of octets; `encode` writes a text in UTF-8 and `decode` reads any octets back,
putting one replacement character for every maximal run of octets that starts
a character and cannot finish it.  Reading what was written gives the text
back (`decode_encode`), so the replacement only shows for octets that no text
has.

Every length and limit of the library counts the octets of this encoding.
-/

namespace RamFs

/-- A text: the characters of a name, a path, a line or a message. -/
abbrev Text := List Char

/-- A run of octets: the content of a file, or what a console carries. -/
abbrev Bytes := List UInt8

namespace Text

/-! ## Writing -/

/-- The octets of a text in UTF-8. -/
def encode (t : Text) : Bytes := t.flatMap String.utf8EncodeChar

/-- The number of octets a text takes in UTF-8. -/
def width (t : Text) : Nat := t.foldr (fun c n => c.utf8Size + n) 0

@[simp] theorem encode_nil : encode [] = [] := rfl

@[simp] theorem encode_cons (c : Char) (t : Text) :
    encode (c :: t) = String.utf8EncodeChar c ++ encode t := by
  simp [encode]

/-- Texts are encoded one after another. -/
@[simp] theorem encode_append (s t : Text) : encode (s ++ t) = encode s ++ encode t := by
  simp [encode]

@[simp] theorem width_nil : width [] = 0 := rfl

@[simp] theorem width_cons (c : Char) (t : Text) : width (c :: t) = c.utf8Size + width t := rfl

@[simp] theorem width_append (s t : Text) : width (s ++ t) = width s + width t := by
  induction s with
  | nil => simp
  | cons c s ih => rw [List.cons_append, width_cons, width_cons, ih, Nat.add_assoc]

/-- The width of a text is the length of its encoding. -/
theorem length_encode (t : Text) : (encode t).length = width t := by
  induction t with
  | nil => rfl
  | cons c t ih => simp [ih]

/-- Every character takes an octet at least. -/
theorem length_le_width (t : Text) : t.length ≤ width t := by
  induction t with
  | nil => exact Nat.le_refl _
  | cons c t ih =>
    have := c.utf8Size_pos
    rw [List.length_cons, width_cons]
    omega

/-- A text is not wider without its last character. -/
theorem width_dropLast_le (t : Text) : width t.dropLast ≤ width t := by
  rcases List.eq_nil_or_concat t with rfl | ⟨t, c, rfl⟩
  · simp
  · simp

/-! ## Reading -/

/-- The character that stands for octets which are part of no character. -/
def replacement : Char := '\uFFFD'

/-- A character whose first octets have been read: how many octets are still
to come, the bits gathered so far, and the range the next octet must lie in. -/
structure Pending where
  missing : Nat
  code : Nat
  low : Nat
  high : Nat
deriving DecidableEq, Repr

/-- What an octet means where a character may begin. -/
inductive Lead
  | whole (c : Char)
  | opening (p : Pending)
  | stray
deriving DecidableEq, Repr

/-- What the octet of value `n` means as the first one of a character.  The
ranges of the second octet exclude overlong forms, surrogates and values past
the last character. -/
def leadOf (n : Nat) : Lead :=
  if n < 0x80 then .whole (Char.ofNat n)
  else if n < 0xC2 then .stray
  else if n < 0xE0 then .opening ⟨1, n % 32, 0x80, 0xBF⟩
  else if n < 0xF0 then
    .opening ⟨2, n % 16, if n = 0xE0 then 0xA0 else 0x80, if n = 0xED then 0x9F else 0xBF⟩
  else if n < 0xF5 then
    .opening ⟨3, n % 8, if n = 0xF0 then 0x90 else 0x80, if n = 0xF4 then 0x8F else 0xBF⟩
  else .stray

/-- What an octet means as the first one of a character. -/
def lead (b : UInt8) : Lead := leadOf b.toNat

/-- Whether an octet continues a character. -/
def Pending.accepts (p : Pending) (b : UInt8) : Bool :=
  p.low ≤ b.toNat && b.toNat ≤ p.high

/-- The bits of a character together with those of the octet that continues it. -/
def Pending.extend (p : Pending) (b : UInt8) : Nat := p.code * 64 + b.toNat % 64

/-- Reads one octet where a character may begin: the characters that are
settled by it and the character that is then under way. -/
def start (b : UInt8) : Text × Option Pending :=
  match lead b with
  | .whole c => ([c], none)
  | .opening p => ([], some p)
  | .stray => ([replacement], none)

/-- Reads one octet.  An octet that cannot continue the character under way
settles that character as a replacement and is read as a first octet. -/
def feed : Option Pending → UInt8 → Text × Option Pending
  | none, b => start b
  | some p, b =>
    if p.accepts b then
      if p.missing ≤ 1 then ([Char.ofNat (p.extend b)], none)
      else ([], some ⟨p.missing - 1, p.extend b, 0x80, 0xBF⟩)
    else
      (replacement :: (start b).1, (start b).2)

/-- Reads octets with a character possibly under way; one that is still under
way at the end is settled as a replacement. -/
def decodeFrom : Option Pending → Bytes → Text
  | none, [] => []
  | some _, [] => [replacement]
  | p, b :: bs => (feed p b).1 ++ decodeFrom (feed p b).2 bs

/-- The text of any octets. -/
def decode (bs : Bytes) : Text := decodeFrom none bs

/-- The text of octets that are valid UTF-8. -/
def decode? (bs : Bytes) : Option Text :=
  if encode (decode bs) = bs then some (decode bs) else none

@[simp] theorem decode_nil : decode [] = [] := rfl

/-- One more octet, with what is pending before it. -/
theorem decodeFrom_cons (p : Option Pending) (b : UInt8) (bs : Bytes) :
    decodeFrom p (b :: bs) = (feed p b).1 ++ decodeFrom (feed p b).2 bs := by
  cases p <;> rfl

/-! ## Reading what was written -/

/-- An octet that opens a character leaves it under way. -/
theorem decodeFrom_opening {b : UInt8} {p : Pending} (h : lead b = .opening p) (bs : Bytes) :
    decodeFrom none (b :: bs) = decodeFrom (some p) bs := by
  simp [decodeFrom_cons, feed, start, h]

/-- An octet in range leaves a character with more missing under way. -/
theorem decodeFrom_next {b : UInt8} {low high : Nat} (h : low ≤ b.toNat ∧ b.toNat ≤ high)
    (missing code : Nat) (bs : Bytes) :
    decodeFrom (some ⟨missing + 2, code, low, high⟩) (b :: bs) =
      decodeFrom (some ⟨missing + 1, code * 64 + b.toNat % 64, 0x80, 0xBF⟩) bs := by
  simp [decodeFrom_cons, feed, Pending.accepts, Pending.extend, h]

/-- An octet in range settles a character with nothing else missing. -/
theorem decodeFrom_last {b : UInt8} {low high : Nat} (h : low ≤ b.toNat ∧ b.toNat ≤ high)
    (code : Nat) (bs : Bytes) :
    decodeFrom (some ⟨1, code, low, high⟩) (b :: bs) =
      Char.ofNat (code * 64 + b.toNat % 64) :: decodeFrom none bs := by
  simp [decodeFrom_cons, feed, Pending.accepts, Pending.extend, h]

/-- The octets of one character are read back as that character. -/
theorem decodeFrom_encodeChar (c : Char) (bs : Bytes) :
    decodeFrom none (String.utf8EncodeChar c ++ bs) = c :: decodeFrom none bs := by
  have hc : Char.ofNat c.val.toNat = c := Char.ofNat_toNat c
  have hv : c.val.toNat < 0xD800 ∨ 0xDFFF < c.val.toNat ∧ c.val.toNat < 0x110000 := c.valid
  have octet : ∀ n, n < 256 → (UInt8.ofNat n).toNat = n := fun n hn => by
    rw [UInt8.toNat_ofNat']; omega
  unfold String.utf8EncodeChar
  simp only
  generalize c.val.toNat = v at hc hv
  -- one case for each number of octets; the bounds on the second octet keep out the codes
  -- that are no characters
  by_cases h1 : v ≤ 0x7F
  · have hl : lead (UInt8.ofNat v) = .whole c := by
      rw [lead, octet v (by omega), leadOf, if_pos (by omega), hc]
    rw [if_pos h1]
    simp [decodeFrom_cons, feed, start, hl]
  rw [if_neg h1]
  by_cases h2 : v ≤ 0x7FF
  · have e1 := octet (v / 64 % 32 + 192) (by omega)
    have e2 := octet (v % 64 + 128) (by omega)
    have hl : lead (UInt8.ofNat (v / 64 % 32 + 192)) = .opening ⟨1, v / 64, 0x80, 0xBF⟩ := by
      rw [lead, e1, leadOf, if_neg (by omega), if_neg (by omega), if_pos (by omega),
        show (v / 64 % 32 + 192) % 32 = v / 64 by omega]
    rw [if_pos h2, List.cons_append, List.cons_append, decodeFrom_opening hl,
      decodeFrom_last (by omega), e2, show v / 64 * 64 + (v % 64 + 128) % 64 = v by omega, hc]
    rfl
  rw [if_neg h2]
  by_cases h3 : v ≤ 0xFFFF
  · have e1 := octet (v / 4096 % 16 + 224) (by omega)
    have e2 := octet (v / 64 % 64 + 128) (by omega)
    have e3 := octet (v % 64 + 128) (by omega)
    have hl : lead (UInt8.ofNat (v / 4096 % 16 + 224)) =
        .opening ⟨2, v / 4096, if v / 4096 % 16 + 224 = 0xE0 then 0xA0 else 0x80,
          if v / 4096 % 16 + 224 = 0xED then 0x9F else 0xBF⟩ := by
      rw [lead, e1, leadOf, if_neg (by omega), if_neg (by omega), if_neg (by omega),
        if_pos (by omega), show (v / 4096 % 16 + 224) % 16 = v / 4096 by omega]
    have hx : (v / 4096 * 64 + (v / 64 % 64 + 128) % 64) * 64 + (v % 64 + 128) % 64 = v := by
      omega
    rw [if_pos h3, List.cons_append, List.cons_append, List.cons_append, decodeFrom_opening hl,
      decodeFrom_next, e2, decodeFrom_last (by omega), e3, hx, hc]
    · rfl
    · constructor <;> split <;> omega
  · have e1 := octet (v / 262144 % 8 + 240) (by omega)
    have e2 := octet (v / 4096 % 64 + 128) (by omega)
    have e3 := octet (v / 64 % 64 + 128) (by omega)
    have e4 := octet (v % 64 + 128) (by omega)
    have hl : lead (UInt8.ofNat (v / 262144 % 8 + 240)) =
        .opening ⟨3, v / 262144, if v / 262144 % 8 + 240 = 0xF0 then 0x90 else 0x80,
          if v / 262144 % 8 + 240 = 0xF4 then 0x8F else 0xBF⟩ := by
      rw [lead, e1, leadOf, if_neg (by omega), if_neg (by omega), if_neg (by omega),
        if_neg (by omega), if_pos (by omega), show (v / 262144 % 8 + 240) % 8 = v / 262144 by omega]
    have hx : ((v / 262144 * 64 + (v / 4096 % 64 + 128) % 64) * 64 + (v / 64 % 64 + 128) % 64) *
        64 + (v % 64 + 128) % 64 = v := by
      omega
    rw [if_neg h3, List.cons_append, List.cons_append, List.cons_append, List.cons_append,
      decodeFrom_opening hl, decodeFrom_next, e2, decodeFrom_next (by omega), e3,
      decodeFrom_last (by omega), e4, hx, hc]
    · rfl
    · constructor <;> split <;> omega

/-- Octets that begin with a whole text are read as that text and what follows. -/
theorem decode_encode_append (t : Text) (bs : Bytes) :
    decode (encode t ++ bs) = t ++ decode bs := by
  induction t with
  | nil => rfl
  | cons c t ih =>
    rw [encode_cons, List.append_assoc]
    exact (decodeFrom_encodeChar c _).trans (congrArg (c :: ·) ih)

/-- A text is read back from its octets. -/
@[simp] theorem decode_encode (t : Text) : decode (encode t) = t := by
  simpa using decode_encode_append t []

/-- Only the empty text has no octets. -/
theorem encode_eq_nil_iff {t : Text} : encode t = [] ↔ t = [] := by
  constructor
  · intro h
    rw [← decode_encode t, h, decode_nil]
  · rintro rfl
    rfl

/-- A strict reading succeeds exactly on the octets of a text. -/
theorem decode?_eq_some_iff {bs : Bytes} {t : Text} : decode? bs = some t ↔ bs = encode t := by
  unfold decode?
  constructor
  · intro h
    split at h
    case isTrue he => cases h; exact he.symm
    case isFalse => cases h
  · rintro rfl
    simp

end Text

end RamFs
