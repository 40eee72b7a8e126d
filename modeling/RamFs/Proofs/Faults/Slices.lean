import RamFs.Proofs.Paths
import RamFs.Text.Cut
import Mathlib.Data.List.TakeWhile

/-!
# RamFs.Proofs.Faults.Slices

Texts cut by octets.  A slice names the octet where it begins or ends, and a
program that slices inside a character cannot go on; neither can one that takes away
more than there is.  The functions below look for octets, count back and slice, and
each of them gives what the library says without any fault:

* `cut_eq_within` — backing off from the limit to where a character begins;
* `keep_eq_storable` — slicing before the first NUL, then cutting;
* `part_eq_splitParent` — slicing a path around its last slash.
-/

namespace RamFs

/-- What a program cannot go on after. -/
inductive Fault
  /-- No node is in the slot of a handle. -/
  | noSuchSlot
  /-- A node that has to be a directory is a file. -/
  | notADirectory
  /-- A slice begins or ends inside a character or beyond the end. -/
  | insideCharacter
  /-- More is taken away from a number than there is. -/
  | belowZero
  /-- A climb has passed more nodes than there are. -/
  | endless
deriving DecidableEq, Repr

namespace Text

variable {c : Char} {a b t : Text} {max n : Nat}

/-! ## Slices -/

/-- A text on both sides of an octet, if a character begins there or the text ends. -/
def splitOctets? : Text → Nat → Option (Text × Text)
  | t, 0 => some ([], t)
  | [], _ + 1 => none
  | c :: t, n + 1 =>
    if c.utf8Size ≤ n + 1 then
      (splitOctets? t (n + 1 - c.utf8Size)).map fun r => (c :: r.1, r.2)
    else none

/-- Whether a character begins at an octet or the text ends there. -/
def isBoundary (t : Text) (n : Nat) : Bool := (t.splitOctets? n).isSome

/-- The text before an octet. -/
def before (t : Text) (n : Nat) : Except Fault Text :=
  match t.splitOctets? n with
  | none => .error .insideCharacter
  | some r => .ok r.1

/-- The text from an octet on. -/
def onFrom (t : Text) (n : Nat) : Except Fault Text :=
  match t.splitOctets? n with
  | none => .error .insideCharacter
  | some r => .ok r.2

/-- A text is cut between its parts. -/
theorem splitOctets?_append (a b : Text) : (a ++ b).splitOctets? (width a) = some (a, b) := by
  induction a with
  | nil => simp [splitOctets?]
  | cons c a ih =>
    have hc := c.utf8Size_pos
    obtain ⟨k, hk⟩ : ∃ k, width (c :: a) = k + 1 := ⟨width (c :: a) - 1, by rw [width_cons]; omega⟩
    have hrest : k + 1 - c.utf8Size = width a := by
      rw [width_cons] at hk
      omega
    rw [hk, List.cons_append, splitOctets?, if_pos (by rw [width_cons] at hk; omega), hrest, ih]
    rfl

/-- A cut gives the text back, with as many octets in front as were asked for. -/
theorem splitOctets?_eq_some (e : t.splitOctets? n = some (a, b)) : t = a ++ b ∧ width a = n := by
  induction t generalizing n a with
  | nil =>
    cases n with
    | zero => cases e; exact ⟨rfl, rfl⟩
    | succ n => cases e
  | cons c t ih =>
    cases n with
    | zero => cases e; exact ⟨rfl, rfl⟩
    | succ n =>
      rw [splitOctets?] at e
      split at e
      case isFalse => cases e
      case isTrue hc =>
        obtain ⟨r, hr, e⟩ := Option.map_eq_some_iff.mp e
        cases e
        obtain ⟨rfl, hw⟩ := ih hr
        exact ⟨rfl, by rw [width_cons, hw]; omega⟩

/-- The boundaries of a text are the widths of its prefixes. -/
theorem isBoundary_iff : t.isBoundary n = true ↔ ∃ a, a <+: t ∧ width a = n := by
  rw [isBoundary, Option.isSome_iff_exists]
  constructor
  · rintro ⟨⟨a, b⟩, e⟩
    obtain ⟨rfl, hw⟩ := splitOctets?_eq_some e
    exact ⟨a, List.prefix_append a b, hw⟩
  · rintro ⟨a, ⟨b, rfl⟩, rfl⟩
    exact ⟨_, splitOctets?_append a b⟩

theorem before_append (a b : Text) : (a ++ b).before (width a) = .ok a := by
  rw [before, splitOctets?_append]

theorem onFrom_append (a b : Text) : (a ++ b).onFrom (width a) = .ok b := by
  rw [onFrom, splitOctets?_append]

example : before "aé".toList 2 = .error .insideCharacter := by decide

/-! ## Cutting -/

/-- The last boundary up to an octet, octet by octet backwards. -/
def backOff (t : Text) : Nat → Except Fault Nat
  | 0 => if t.isBoundary 0 then .ok 0 else .error .belowZero
  | n + 1 => if t.isBoundary (n + 1) then .ok (n + 1) else t.backOff n

/-- A text cut to a number of octets by slicing. -/
def cut (max : Nat) (t : Text) : Except Fault Text :=
  if width t ≤ max then .ok t
  else do
    let n ← t.backOff max
    t.before n

/-- Backing off ends where the longest prefix that fits ends. -/
theorem backOff_eq (hn : n ≤ max) (hw : width (within max t) ≤ n) :
    t.backOff n = .ok (width (within max t)) := by
  have hboundary : t.isBoundary (width (within max t)) = true :=
    isBoundary_iff.mpr ⟨_, within_prefix max t, rfl⟩
  have hlast : ∀ k, t.isBoundary k = true → k ≤ max → k ≤ width (within max t) := by
    intro k hk hle
    obtain ⟨a, ha, rfl⟩ := isBoundary_iff.mp hk
    obtain ⟨b, hb⟩ := prefix_within ha hle
    rw [← hb, width_append]
    omega
  induction n with
  | zero =>
    have h0 : width (within max t) = 0 := by omega
    rw [h0] at hboundary ⊢
    simp [backOff, hboundary]
  | succ n ih =>
    rw [backOff]
    split
    case isTrue hk =>
      have := hlast (n + 1) hk hn
      exact congrArg _ (by omega)
    case isFalse hk =>
      refine ih (by omega) ?_
      have hne : width (within max t) ≠ n + 1 := fun e => hk (e ▸ hboundary)
      omega

/-- Cutting by slicing gives the longest prefix that fits. -/
theorem cut_eq_within (max : Nat) (t : Text) : cut max t = .ok (within max t) := by
  rw [cut]
  split
  case isTrue hw => rw [within_eq_self hw]
  case isFalse =>
    obtain ⟨b, hb⟩ := within_prefix max t
    have hslice := before_append (within max t) b
    rw [hb] at hslice
    rw [backOff_eq (Nat.le_refl max) (width_within_le max t)]
    exact hslice

/-! ## Searching -/

/-- The octet where a character is first. -/
def firstOctet? (c : Char) : Text → Option Nat
  | [] => none
  | x :: t => if x = c then some 0 else (firstOctet? c t).map (x.utf8Size + ·)

/-- The octet where a character is last. -/
def lastOctet? (c : Char) : Text → Option Nat
  | [] => none
  | x :: t =>
    match lastOctet? c t with
    | some n => some (x.utf8Size + n)
    | none => if x = c then some 0 else none

/-- An octet that is not found is not there. -/
theorem firstOctet?_eq_none (e : firstOctet? c t = none) : c ∉ t := by
  induction t with
  | nil => simp
  | cons x t ih =>
    rw [firstOctet?] at e
    split at e
    case isTrue => cases e
    case isFalse hx => simpa [Ne.symm hx] using ih (Option.map_eq_none_iff.mp e)

/-- An octet that is found is the first one, and its place is a boundary. -/
theorem firstOctet?_eq_some (e : firstOctet? c t = some n) :
    ∃ a b, t = a ++ c :: b ∧ c ∉ a ∧ width a = n := by
  induction t generalizing n with
  | nil => cases e
  | cons x t ih =>
    rw [firstOctet?] at e
    split at e
    case isTrue hx =>
      cases e
      exact ⟨[], t, by rw [hx, List.nil_append], by simp, rfl⟩
    case isFalse hx =>
      obtain ⟨k, hk, rfl⟩ := Option.map_eq_some_iff.mp e
      obtain ⟨a, b, rfl, ha, rfl⟩ := ih hk
      exact ⟨x :: a, b, rfl, by simp [Ne.symm hx, ha], rfl⟩

/-- An octet that is not found from the end is not there. -/
theorem lastOctet?_eq_none (e : lastOctet? c t = none) : c ∉ t := by
  induction t with
  | nil => simp
  | cons x t ih =>
    rw [lastOctet?] at e
    split at e
    case h_1 => cases e
    case h_2 hn =>
      split at e
      case isTrue => cases e
      case isFalse hx => simpa [Ne.symm hx] using ih hn

/-- An octet that is found from the end is the last one, and its place is a boundary. -/
theorem lastOctet?_eq_some (e : lastOctet? c t = some n) :
    ∃ a b, t = a ++ c :: b ∧ c ∉ b ∧ width a = n := by
  induction t generalizing n with
  | nil => cases e
  | cons x t ih =>
    rw [lastOctet?] at e
    split at e
    case h_1 k hk =>
      cases e
      obtain ⟨a, b, rfl, hb, rfl⟩ := ih hk
      exact ⟨x :: a, b, rfl, hb, rfl⟩
    case h_2 hn =>
      split at e
      case isFalse => cases e
      case isTrue hx =>
        cases e
        exact ⟨[], t, by rw [hx, List.nil_append], lastOctet?_eq_none hn, rfl⟩

/-! ## What a file keeps -/

/-- The part of a text that a file keeps, by slicing before the first NUL. -/
def keep (max : Nat) (t : Text) : Except Fault Text :=
  match t.firstOctet? '\x00' with
  | none => cut max t
  | some n => do
    let t ← t.before n
    cut max t

/-- Cutting by slices never fails and gives what is stored. -/
theorem keep_eq_storable (max : Nat) (t : Text) : keep max t = .ok (storable max t) := by
  rw [keep, storable, upToNul]
  split
  case h_1 e =>
    have hall : ∀ x ∈ t, (x != '\x00') = true := by
      intro x hx
      have := ne_of_mem_of_not_mem hx (firstOctet?_eq_none e)
      simpa using this
    rw [cut_eq_within, List.takeWhile_eq_self_iff.mpr hall]
  case h_2 n e =>
    obtain ⟨a, b, rfl, ha, rfl⟩ := firstOctet?_eq_some e
    have hall : ∀ x ∈ a, (x != '\x00') = true := by
      intro x hx
      simpa using ne_of_mem_of_not_mem hx ha
    rw [before_append, List.takeWhile_append_of_pos hall, List.takeWhile_cons_of_neg (by simp),
      List.append_nil]
    exact cut_eq_within max a

end Text

namespace Path

open Text

/-! ## Around the last slash -/

/-- A path without the slashes at its end. -/
def trimmed (p : Text) : Text := (p.reverse.dropWhile (· == separator)).reverse

/-- A path taken apart into its parent and its leaf by slicing. -/
def part (p : Text) : Except Fault (Text × Text) :=
  if trimmed p = [] then .ok (if isAbsolute p then ([separator], []) else ([], []))
  else
    match lastOctet? separator (trimmed p) with
    | none => .ok ([], trimmed p)
    | some 0 => do
      let leaf ← onFrom (trimmed p) 1
      .ok ([separator], leaf)
    | some (n + 1) => do
      let parent ← before (trimmed p) (n + 1)
      let leaf ← onFrom (trimmed p) (n + 2)
      .ok (parent, leaf)

/-- A path without its separators at the end is the front of it. -/
theorem trimmed_prefix (p : Text) : trimmed p <+: p := by
  have h := List.reverse_prefix.mpr (List.dropWhile_suffix (· == separator) (l := p.reverse))
  rwa [List.reverse_reverse] at h

/-- What is left of a path tells whether it starts at the root. -/
theorem isAbsolute_of_trimmed {p : Text} (h : trimmed p ≠ []) :
    isAbsolute p = isAbsolute (trimmed p) := by
  obtain ⟨b, hb⟩ := trimmed_prefix p
  cases ht : trimmed p with
  | nil => exact absurd ht h
  | cons c a =>
    rw [← hb, ht]
    rfl

/-- A path without a slash before its end is a leaf. -/
theorem splitParent_of_bare {p : Text} (hne : trimmed p ≠ []) (h : separator ∉ trimmed p) :
    splitParent p = ([], trimmed p) := by
  have hall : ∀ x ∈ p.reverse.dropWhile (· == separator), (x != separator) = true := by
    intro x hx
    have := ne_of_mem_of_not_mem (List.mem_reverse.mpr hx) h
    simpa using this
  have habs : isAbsolute p = false := by
    rw [isAbsolute_of_trimmed hne]
    cases ht : trimmed p with
    | nil => rfl
    | cons c a =>
      rw [ht] at h
      have := ne_of_mem_of_not_mem List.mem_cons_self h
      simpa [isAbsolute] using this
  rw [splitParent, List.takeWhile_eq_self_iff.mpr hall, List.dropWhile_eq_nil_iff.mpr hall]
  simp [habs, trimmed]

/-- A path with a slash before its end is cut at the last one. -/
theorem splitParent_of_append {p a b : Text} (e : trimmed p = a ++ separator :: b)
    (hb : separator ∉ b) : splitParent p = (if a = [] then [separator] else a, b) := by
  have habs : a = [] → isAbsolute p = true := by
    rintro rfl
    rw [isAbsolute_of_trimmed (by simp [e]), e]
    simp [isAbsolute]
  have hback : p.reverse.dropWhile (· == separator) = b.reverse ++ separator :: a.reverse := by
    rw [← List.reverse_reverse (List.dropWhile _ _)]
    change (trimmed p).reverse = _
    simp [e]
  have hall : ∀ x ∈ b.reverse, (x != separator) = true := by
    intro x hx
    simpa using ne_of_mem_of_not_mem (List.mem_reverse.mp hx) hb
  rw [splitParent, hback, List.takeWhile_append_of_pos hall, List.dropWhile_append_of_pos hall,
    List.takeWhile_cons_of_neg (by simp), List.dropWhile_cons_of_neg (by simp)]
  by_cases ha : a = []
  · simp [ha, habs ha]
  · simp [ha]

/-- Taking a path apart by slicing gives its parent and its leaf. -/
theorem part_eq_splitParent (p : Text) : part p = .ok (splitParent p) := by
  rw [part]
  split
  case isTrue ht =>
    have hback : p.reverse.dropWhile (· == separator) = [] := List.reverse_eq_nil_iff.mp ht
    simp only [splitParent, hback]
    cases isAbsolute p <;> rfl
  case isFalse ht =>
    split
    case h_1 e => rw [splitParent_of_bare ht (lastOctet?_eq_none e)]
    case h_2 e =>
      obtain ⟨a, b, ha, hb, hw⟩ := lastOctet?_eq_some e
      -- the separator is the first octet, so nothing stands before it
      cases a with
      | cons c a =>
        have hc := c.utf8Size_pos
        rw [width_cons] at hw
        omega
      | nil =>
        have hleaf : onFrom (trimmed p) 1 = .ok b := by
          rw [ha]
          exact onFrom_append [separator] b
        rw [splitParent_of_append ha hb, hleaf]
        rfl
    case h_3 n e =>
      obtain ⟨a, b, ha, hb, hw⟩ := lastOctet?_eq_some e
      change width a = n + 1 at hw
      have hne : a ≠ [] := by
        rintro rfl
        cases hw
      -- both slices are at the ends of a separator, which are boundaries
      have hparent : before (trimmed p) (n + 1) = .ok a := by
        rw [ha, ← hw]
        exact before_append a (separator :: b)
      have hleaf : onFrom (trimmed p) (n + 2) = .ok b := by
        have := onFrom_append (a ++ [separator]) b
        rw [width_append, hw, List.append_assoc] at this
        rw [ha]
        exact this
      rw [splitParent_of_append ha hb, if_neg hne, hparent, hleaf]
      rfl

end Path

end RamFs
