import RamFs.Text.Utf8

/-!
# RamFs.Text.Number

Numbers in texts: decimal digits, a reader of unsigned numbers with an
optional plus sign, and the hexadecimal digits that stand for the unnamed
bits of a flag set.
-/

namespace RamFs

namespace Text

/-! ## Decimal -/

/-- The decimal digits of a number. -/
def ofNat (n : Nat) : Text := Nat.toDigits 10 n

/-- The number that a run of decimal digits stands for; leading zeros are fine
and an empty run is refused. -/
def digits? (t : Text) : Option Nat :=
  if t ≠ [] ∧ t.all Char.isDigit then some (Nat.ofDigitChars 10 t 0) else none

/-- A text without the plus sign it may start with. -/
def dropPlus : Text → Text
  | '+' :: t => t
  | t => t

/-- The number below `bound` that a text stands for: decimal digits after an
optional plus sign. -/
def unsigned? (bound : Nat) (t : Text) : Option Nat :=
  (digits? (dropPlus t)).filter (· < bound)

/-! ## Hexadecimal -/

/-- The value of a hexadecimal digit of either case. -/
def hexDigit? (c : Char) : Option Nat :=
  if '0' ≤ c ∧ c ≤ '9' then some (c.toNat - '0'.toNat)
  else if 'a' ≤ c ∧ c ≤ 'f' then some (c.toNat - 'a'.toNat + 10)
  else if 'A' ≤ c ∧ c ≤ 'F' then some (c.toNat - 'A'.toNat + 10)
  else none

/-- The number that a run of hexadecimal digits stands for. -/
def hexDigits? : Text → Option Nat
  | [] => none
  | t => (t.mapM hexDigit?).map fun ds => ds.foldl (fun n d => n * 16 + d) 0

/-- The hexadecimal digits of a number, letters in lower case. -/
def ofNatHex (n : Nat) : Text := Nat.toDigits 16 n

/-! ## Reading what was written -/

/-- Every decimal digit of a number is one. -/
theorem all_isDigit_ofNat (n : Nat) : (ofNat n).all Char.isDigit = true :=
  List.all_eq_true.mpr fun _ h => Nat.isDigit_of_mem_toDigits (by decide) (by decide) h

/-- Digits take one octet each. -/
theorem utf8Size_of_mem_ofNat {n : Nat} {c : Char} (hc : c ∈ ofNat n) : c.utf8Size = 1 := by
  have hdigit := List.all_eq_true.mp (all_isDigit_ofNat n) c hc
  have hle : c.toNat ≤ 57 := by
    simp only [Char.isDigit, Bool.and_eq_true, decide_eq_true_eq] at hdigit
    exact UInt32.le_iff_toNat_le.mp hdigit.2
  exact Char.utf8Size_eq_one_iff.mpr (UInt32.le_iff_toNat_le.mpr (Nat.le_trans hle (by decide)))

/-- A number has at least one digit. -/
theorem ofNat_ne_nil (n : Nat) : ofNat n ≠ [] := Nat.toDigits_ne_nil

/-- Only zero is written with a zero in front. -/
theorem exists_ofNat_eq_cons {n : Nat} (h : n ≠ 0) : ∃ c t, ofNat n = c :: t ∧ c ≠ '0' := by
  induction n using Nat.strongRecOn with
  | ind n ih =>
    rw [ofNat, Nat.toDigits_eq_if (by decide)]
    split
    case isTrue hn =>
      have hdigit : ∀ d < 10, d ≠ 0 → Nat.digitChar d ≠ '0' := by decide
      exact ⟨_, _, rfl, hdigit n hn h⟩
    case isFalse hn =>
      obtain ⟨c, t, ht, hc⟩ := ih (n / 10) (by omega) (by omega)
      rw [ofNat] at ht
      exact ⟨c, t ++ [Nat.digitChar (n % 10)], by rw [ht, List.cons_append], hc⟩

/-- A number is read back from its digits. -/
@[simp] theorem digits?_ofNat (n : Nat) : digits? (ofNat n) = some n := by
  rw [digits?, if_pos ⟨ofNat_ne_nil n, all_isDigit_ofNat n⟩, ofNat, Nat.ofDigitChars_ten_toDigits]

/-- The value of a hexadecimal digit is read back. -/
theorem hexDigit?_digitChar : ∀ d < 16, hexDigit? (Nat.digitChar d) = some d := by decide

/-- Hexadecimal numbers have no other characters than digits. -/
theorem exists_of_mem_ofNatHex {n : Nat} {c : Char} (h : c ∈ ofNatHex n) :
    ∃ d < 16, c = Nat.digitChar d := by
  induction n using Nat.strongRecOn with
  | ind n ih =>
    rw [ofNatHex, Nat.toDigits_eq_if (by decide)] at h
    split at h
    case isTrue hn => exact ⟨n, hn, List.mem_singleton.mp h⟩
    case isFalse hn =>
      obtain h | h := List.mem_append.mp h
      · exact ih (n / 16) (by omega) h
      · exact ⟨n % 16, Nat.mod_lt n (by decide), List.mem_singleton.mp h⟩

/-- The hexadecimal digits of a number have its value. -/
theorem mapM_hexDigit?_ofNatHex (n : Nat) :
    ∃ ds, (ofNatHex n).mapM hexDigit? = some ds ∧ ds.foldl (fun n d => n * 16 + d) 0 = n := by
  induction n using Nat.strongRecOn with
  | ind n ih =>
    rw [ofNatHex, Nat.toDigits_eq_if (by decide)]
    split
    case isTrue hn =>
      refine ⟨[n], by simp [hexDigit?_digitChar n hn], by simp⟩
    case isFalse hn =>
      obtain ⟨ds, hds, hvalue⟩ := ih (n / 16) (by omega)
      have hlast := hexDigit?_digitChar (n % 16) (Nat.mod_lt n (by decide))
      rw [ofNatHex] at hds
      refine ⟨ds ++ [n % 16], by simp [List.mapM_append, hds, hlast], ?_⟩
      rw [List.foldl_append, hvalue, List.foldl_cons, List.foldl_nil]
      omega

/-- A number is read back from its hexadecimal digits. -/
@[simp] theorem hexDigits?_ofNatHex (n : Nat) : hexDigits? (ofNatHex n) = some n := by
  obtain ⟨ds, hds, hvalue⟩ := mapM_hexDigit?_ofNatHex n
  rw [hexDigits?, hds, Option.map_some, hvalue]
  exact Nat.toDigits_ne_nil

/-- A number is written without a sign. -/
@[simp] theorem dropPlus_ofNat (n : Nat) : dropPlus (ofNat n) = ofNat n := by
  have hdigits := all_isDigit_ofNat n
  unfold dropPlus
  split
  case h_1 t ht =>
    rw [ht] at hdigits
    exact absurd (List.all_eq_true.mp hdigits '+' List.mem_cons_self) (by decide)
  case h_2 => rfl

@[simp] theorem dropPlus_ofNatHex (n : Nat) : dropPlus (ofNatHex n) = ofNatHex n := by
  unfold dropPlus
  split
  case h_1 t ht =>
    obtain ⟨d, hd, hc⟩ := exists_of_mem_ofNatHex (n := n) (ht ▸ List.mem_cons_self)
    have hplus : ∀ d < 16, '+' ≠ Nat.digitChar d := by decide
    exact absurd hc (hplus d hd)
  case h_2 => rfl

/-- A number below the bound is read back from its digits. -/
theorem unsigned?_ofNat {bound n : Nat} (h : n < bound) : unsigned? bound (ofNat n) = some n := by
  simp [unsigned?, Option.filter, h]

end Text

end RamFs
