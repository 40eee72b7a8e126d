import RamFs.Text.Utf8

/-!
# RamFs.Text.Cut

Cutting a text to a number of octets.  `within max` keeps the longest run of
whole characters from the front that takes at most `max` octets, so a cut never
splits a character; `storable max` first stops at the first NUL, which is how a
file keeps a text.
-/

namespace RamFs

namespace Text

/-! ## Cutting to a width -/

/-- The longest prefix in whole characters that takes at most `max` octets. -/
def within : Nat → Text → Text
  | _, [] => []
  | max, c :: t => if c.utf8Size ≤ max then c :: within (max - c.utf8Size) t else []

@[simp] theorem within_nil (max : Nat) : within max [] = [] := rfl

theorem within_cons (max : Nat) (c : Char) (t : Text) :
    within max (c :: t) =
      if c.utf8Size ≤ max then c :: within (max - c.utf8Size) t else [] := rfl

/-- A cut text fits. -/
theorem width_within_le (max : Nat) (t : Text) : width (within max t) ≤ max := by
  induction t generalizing max with
  | nil => simp
  | cons c t ih =>
    rw [within_cons]
    split
    case isTrue h =>
      have := ih (max - c.utf8Size)
      rw [width_cons]; omega
    case isFalse => simp

/-- A cut text is where the text begins. -/
theorem within_prefix (max : Nat) (t : Text) : within max t <+: t := by
  induction t generalizing max with
  | nil => simp
  | cons c t ih =>
    rw [within_cons]
    split
    case isTrue => exact List.cons_prefix_cons.mpr ⟨rfl, ih _⟩
    case isFalse => exact List.nil_prefix

/-- No prefix that fits goes beyond the cut. -/
theorem prefix_within {max : Nat} {p t : Text} (hp : p <+: t) (hw : width p ≤ max) :
    p <+: within max t := by
  induction t generalizing p max with
  | nil => simpa using hp
  | cons c t ih =>
    cases p with
    | nil => exact List.nil_prefix
    | cons a p =>
      obtain ⟨rfl, htail⟩ := List.cons_prefix_cons.mp hp
      rw [width_cons] at hw
      rw [within_cons, if_pos (by omega)]
      exact List.cons_prefix_cons.mpr ⟨rfl, ih htail (by omega)⟩

/-- With more octets a text is cut later. -/
theorem within_prefix_within {m n : Nat} (h : m ≤ n) (t : Text) : within m t <+: within n t := by
  induction t generalizing m n with
  | nil => exact List.prefix_rfl
  | cons c t ih =>
    rw [within_cons, within_cons]
    split
    case isTrue hc =>
      rw [if_pos (by omega)]
      exact List.cons_prefix_cons.mpr ⟨rfl, ih (by omega)⟩
    case isFalse => exact List.nil_prefix

/-- A text that fits is kept whole. -/
theorem within_eq_self {max : Nat} {t : Text} (h : width t ≤ max) : within max t = t := by
  induction t generalizing max with
  | nil => rfl
  | cons c t ih =>
    rw [width_cons] at h
    rw [within_cons, if_pos (by omega), ih (by omega)]

/-- A cut leaves out less than one character more than it must, so it falls short
of the octets there are, or may be, by at most three. -/
theorem min_le_width_within (max : Nat) (t : Text) :
    min (width t) max ≤ width (within max t) + 3 := by
  induction t generalizing max with
  | nil => simp
  | cons c t ih =>
    have hc := c.utf8Size_le_four
    rw [within_cons]
    split
    case isTrue =>
      have := ih (max - c.utf8Size)
      rw [width_cons, width_cons]; omega
    case isFalse => rw [width_nil]; omega

/-- A text whose characters take one octet each is cut like its octets. -/
theorem encode_within {t : Text} (ht : ∀ c ∈ t, c.utf8Size = 1) (max : Nat) :
    encode (within max t) = (encode t).take max := by
  induction t generalizing max with
  | nil => simp
  | cons c t ih =>
    obtain ⟨hc, ht⟩ := List.forall_mem_cons.mp ht
    have hone := String.utf8EncodeChar_eq_singleton hc
    cases max with
    | zero => simp [within_cons, hc]
    | succ max =>
      rw [within_cons, if_pos (by omega), hc, Nat.add_sub_cancel, encode_cons, encode_cons, hone,
        ih ht]
      rfl

/-! ## What a file keeps -/

/-- The part of a text before its first NUL. -/
def upToNul (t : Text) : Text := t.takeWhile (· != '\x00')

/-- The part of a text that a file with room for `max` octets keeps. -/
def storable (max : Nat) (t : Text) : Text := within max (upToNul t)

/-- What a file keeps fits. -/
theorem width_storable_le (max : Nat) (t : Text) : width (storable max t) ≤ max :=
  width_within_le max (upToNul t)

end Text

end RamFs
