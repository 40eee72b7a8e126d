import RamFs.Console.LineEditor

/-!
# RamFs.Proofs.Console.Characters

The octets of one character, and those of a part of it.  The first octet of a character
begins it and the others continue it (`encodeChar_eq_cons`), so a character that was
typed last is found by looking backwards for the octet that begins it.  Octets that
begin a character and do not finish it are read as one replacement
(`decode_of_part`); the proof does not look at their values, as the reading of a whole
character settles nothing before its last octet.
-/

namespace RamFs

namespace LineEditor

/-- The octets that continue a character are the ones from `0x80` up to `0xBF`. -/
theorem isContinuation_iff {b : UInt8} :
    isContinuation b = true ↔ 0x80 ≤ b.toNat ∧ b.toNat < 0xC0 := by
  obtain ⟨b⟩ := b
  revert b
  decide +kernel

end LineEditor

namespace Text

open LineEditor (isContinuation isContinuation_iff)

variable {c : Char} {a b : Bytes} {p : Option Pending}

/-! ## The octets of a character -/

theorem toNat_ofNat_of_lt {n : Nat} (h : n < 256) : (UInt8.ofNat n).toNat = n := by
  rw [UInt8.toNat_ofNat']
  omega

/-- A character has one octet that begins it, and octets that continue it. -/
theorem encodeChar_eq_cons (c : Char) : ∃ first others,
    String.utf8EncodeChar c = first :: others ∧ isContinuation first = false ∧
      ∀ x ∈ others, isContinuation x = true := by
  have hv : c.val.toNat < 0x110000 := by
    have hvalid := c.valid
    simp only [UInt32.isValidChar, Nat.isValidChar] at hvalid
    omega
  have hfirst : ∀ n, n < 256 → (n < 0x80 ∨ 0xC0 ≤ n) → isContinuation (UInt8.ofNat n) = false := by
    intro n hn h
    rw [← Bool.not_eq_true, isContinuation_iff, toNat_ofNat_of_lt hn]
    omega
  have hother : ∀ n, isContinuation (UInt8.ofNat (n % 64 + 128)) = true := by
    intro n
    rw [isContinuation_iff, toNat_ofNat_of_lt (by omega)]
    omega
  unfold String.utf8EncodeChar
  simp only
  generalize c.val.toNat = v at hv
  have h1 := hother v
  have h2 := hother (v / 64)
  have h3 := hother (v / 4096)
  split
  · exact ⟨_, _, rfl, hfirst _ (by omega) (by omega), by simp⟩
  split
  · exact ⟨_, _, rfl, hfirst _ (by omega) (by omega), by simpa only [List.forall_mem_singleton]⟩
  split
  · refine ⟨_, _, rfl, hfirst _ (by omega) (by omega), ?_⟩
    simp only [List.forall_mem_cons]
    exact ⟨h2, h1, nofun⟩
  · refine ⟨_, _, rfl, hfirst _ (by omega) (by omega), ?_⟩
    simp only [List.forall_mem_cons]
    exact ⟨h3, h2, h1, nofun⟩

/-- A character below `0x80` is its own octet, and the octets of any other one are not
below `0x80` either. -/
theorem encodeChar_cases (c : Char) :
    (∃ x, String.utf8EncodeChar c = [x] ∧ x.toNat = c.toNat) ∨
      (0x80 ≤ c.toNat ∧ ∀ x ∈ String.utf8EncodeChar c, 0x80 ≤ x.toNat) := by
  have hhigh : ∀ n, n < 128 → 0x80 ≤ (UInt8.ofNat (n + 128)).toNat := by
    intro n hn
    rw [toNat_ofNat_of_lt (by omega)]
    omega
  unfold String.utf8EncodeChar Char.toNat
  simp only
  generalize c.val.toNat = v
  have h1 := hhigh (v % 64) (by omega)
  have h2 := hhigh (v / 64 % 64) (by omega)
  have h3 := hhigh (v / 4096 % 64) (by omega)
  split
  case isTrue h => exact Or.inl ⟨_, rfl, toNat_ofNat_of_lt (by omega)⟩
  case isFalse h =>
    refine Or.inr ⟨by omega, ?_⟩
    split
    · simp only [List.forall_mem_cons]
      exact ⟨hhigh (v / 64 % 32 + 64) (by omega), h1, nofun⟩
    split
    · simp only [List.forall_mem_cons]
      exact ⟨hhigh (v / 4096 % 16 + 96) (by omega), h2, h1, nofun⟩
    · simp only [List.forall_mem_cons]
      exact ⟨hhigh (v / 262144 % 8 + 112) (by omega), h3, h2, h1, nofun⟩

/-! ## Reading in two parts -/

/-- Reads octets with a character possibly under way: what is settled by them, and the
character that is then under way. -/
def feedAll : Option Pending → Bytes → Text × Option Pending
  | p, [] => ([], p)
  | p, x :: bs => ((feed p x).1 ++ (feedAll (feed p x).2 bs).1, (feedAll (feed p x).2 bs).2)

/-- Octets may be read in two parts. -/
theorem decodeFrom_append (p : Option Pending) (a b : Bytes) :
    decodeFrom p (a ++ b) = (feedAll p a).1 ++ decodeFrom (feedAll p a).2 b := by
  induction a generalizing p with
  | nil => rfl
  | cons x a ih => rw [List.cons_append, decodeFrom_cons, ih, feedAll, List.append_assoc]

/-- An octet that settles nothing leaves a character under way. -/
theorem pending_of_silent {x : UInt8} (h : (feed p x).1 = []) : (feed p x).2 ≠ none := by
  have hstart : (start x).1 = [] → (start x).2 ≠ none := by
    unfold start
    split <;> simp
  cases p with
  | none => exact hstart h
  | some p =>
    rw [feed] at h ⊢
    split at h
    case isTrue ha =>
      rw [if_pos ha]
      split at h
      case isTrue => contradiction
      case isFalse hm => simp [hm]
    case isFalse => contradiction

/-- Something is read wherever there is an octet, or a character under way. -/
theorem decodeFrom_ne_nil (h : p ≠ none ∨ a ≠ []) : decodeFrom p a ≠ [] := by
  induction a generalizing p with
  | nil =>
    cases p with
    | none => simp at h
    | some p => simp [decodeFrom]
  | cons x a ih =>
    rw [decodeFrom_cons]
    by_cases hx : (feed p x).1 = []
    · simpa [hx] using ih (Or.inl (pending_of_silent hx))
    · simp [hx]

/-- **Part of a character**: octets that begin a character and do not finish it are read
as one replacement. -/
theorem decode_of_part (h : String.utf8EncodeChar c = a ++ b) (ha : a ≠ []) (hb : b ≠ []) :
    decode a = [replacement] := by
  have hwhole := decodeFrom_encodeChar c []
  rw [List.append_nil, h, decodeFrom_append] at hwhole
  -- the rest of the octets settles something, so this part has settled nothing
  have hrest := List.length_pos_iff.mpr (decodeFrom_ne_nil (p := (feedAll none a).2) (Or.inr hb))
  have hlength := congrArg List.length hwhole
  have hsilent : (feedAll none a).1 = [] := by
    rw [List.length_append] at hlength
    simp only [decodeFrom, List.length_cons, List.length_nil] at hlength
    exact List.eq_nil_of_length_eq_zero (by omega)
  have hpart := decodeFrom_append none a []
  rw [List.append_nil, hsilent, List.nil_append] at hpart
  rw [decode, hpart]
  cases hp : (feedAll none a).2 with
  | some p => rfl
  | none =>
    rw [hp] at hpart
    exact absurd hpart (decodeFrom_ne_nil (Or.inr ha))

end Text

end RamFs
