import Mathlib.Data.List.TakeWhile
import RamFs.Json.Records
import RamFs.Proofs.Console.Characters
import RamFs.Text.Cut

/-!
# RamFs.Proofs.Keepable

Texts that a file may keep: they have no NUL and fit.  Of any text a file keeps the
longest prefix of that kind (`Text.longestKeepable_storable`).  The description of a
volume is cut to the limit but never looked at for NULs; it has none
(`Limits.nul_not_mem_describe`), as JSON escapes them in strings and has no use for them
elsewhere.
-/

namespace RamFs

/-! ## Texts that a file may keep -/

namespace Text

variable {max : Nat} {t p q : Text}

/-- A text without NUL that takes at most `max` octets. -/
structure Keepable (max : Nat) (t : Text) : Prop where
  nulFree : '\x00' ∉ t
  fits : width t ≤ max

/-- `p` is the longest prefix of `t`, in whole characters, that may be kept. -/
structure LongestKeepable (max : Nat) (t p : Text) : Prop where
  initial : p <+: t
  keepable : Keepable max p
  longest : ∀ q, q <+: t → Keepable max q → q <+: p

theorem keepable_nil (max : Nat) : Keepable max [] := ⟨List.not_mem_nil, Nat.zero_le max⟩

/-- There is no NUL before the first one. -/
theorem nul_not_mem_upToNul (t : Text) : '\x00' ∉ upToNul t := fun hm => by
  simpa using List.mem_takeWhile_imp hm

/-- A text without NUL is taken whole. -/
theorem upToNul_eq_self (ht : '\x00' ∉ t) : upToNul t = t :=
  List.takeWhile_eq_self_iff.mpr fun c hc => by
    rw [bne_iff_ne]
    rintro rfl
    exact ht hc

/-- A prefix without NUL ends before the first one. -/
theorem prefix_upToNul (hp : p <+: t) (hn : '\x00' ∉ p) : p <+: upToNul t := by
  obtain ⟨s, rfl⟩ := hp
  have hall : ∀ c ∈ p, (c != '\x00') = true := by
    intro c hc
    rw [bne_iff_ne]
    rintro rfl
    exact hn hc
  rw [upToNul, List.takeWhile_append_of_pos hall]
  exact List.prefix_append p _

/-- What is stored of a text may be kept. -/
theorem keepable_storable (max : Nat) (t : Text) : Keepable max (storable max t) := by
  have hcut := within_prefix max (upToNul t)
  exact ⟨fun hm => nul_not_mem_upToNul t (hcut.mem hm), width_storable_le max t⟩

/-- What a file keeps is the longest prefix that it may keep. -/
theorem longestKeepable_storable (max : Nat) (t : Text) :
    LongestKeepable max t (storable max t) where
  initial := by
    have hcut := within_prefix max (upToNul t)
    exact hcut.trans (List.takeWhile_prefix _)
  keepable := keepable_storable max t
  longest _ hq hk := prefix_within (prefix_upToNul hq hk.nulFree) hk.fits

/-- There is one longest prefix. -/
theorem LongestKeepable.unique (a : LongestKeepable max t p) (b : LongestKeepable max t q) :
    p = q :=
  (b.longest p a.initial a.keepable).eq_of_length_le
    (a.longest q b.initial b.keepable).length_le

/-- What may be kept is kept whole. -/
theorem storable_eq_self (hk : Keepable max t) : storable max t = t := by
  rw [storable, upToNul_eq_self hk.nulFree, within_eq_self hk.fits]

/-- Only a NUL has an octet zero. -/
theorem zero_mem_encodeChar_iff (c : Char) : 0 ∈ String.utf8EncodeChar c ↔ c = '\x00' := by
  obtain ⟨x, hx, hc⟩ | ⟨hc, hall⟩ := encodeChar_cases c
  · rw [hx, List.mem_singleton, eq_comm, ← UInt8.toNat_inj, hc, ← Char.toNat_inj]
    rfl
  · constructor
    · intro hm
      exact absurd (hall 0 hm) (by decide)
    · rintro rfl
      exact absurd hc (by decide)

/-- A text has an octet zero exactly if it has a NUL. -/
theorem zero_mem_encode_iff : 0 ∈ encode t ↔ '\x00' ∈ t := by
  rw [encode, List.mem_flatMap]
  simp [zero_mem_encodeChar_iff]

end Text

/-! ## The description of a volume -/

namespace Json

theorem nul_not_mem_hex4 (code : Nat) : '\x00' ∉ hex4 code := by
  have hdigit : ∀ d, d < 16 → '\x00' ≠ Nat.digitChar d := by decide
  have hmod : ∀ n : Nat, n % 16 < 16 := fun n => Nat.mod_lt n (by decide)
  simp [hex4, hdigit _ (hmod _)]

/-- A character in a string is written without NUL, as NUL itself is escaped. -/
theorem nul_not_mem_renderChar (c : Char) : '\x00' ∉ renderChar c := by
  unfold renderChar
  split
  case h_8 =>
    split
    case isTrue => simp [nul_not_mem_hex4]
    case isFalse hc =>
      rw [List.mem_singleton]
      rintro rfl
      exact hc (by decide)
  all_goals decide

/-- A string is written without NULs, as they are escaped. -/
theorem nul_not_mem_renderString (ps : List Piece) : '\x00' ∉ renderString ps := by
  have hpieces : '\x00' ∉ ps.flatMap renderPiece := by
    rw [List.mem_flatMap]
    rintro ⟨p, -, hp⟩
    cases p with
    | char c => exact nul_not_mem_renderChar c hp
    | unit code => simp [renderPiece, nul_not_mem_hex4] at hp
  simp [renderString, hpieces]

/-- Members are written without NUL if their values are. -/
theorem nul_not_mem_renderMembers {ms : List (List Piece × Json)}
    (h : ∀ m ∈ ms, '\x00' ∉ render m.2) : '\x00' ∉ renderMembers ms := by
  induction ms with
  | nil => simp [renderMembers]
  | cons m ms ih =>
    have hm := h m List.mem_cons_self
    have ih := ih fun x hx => h x (List.mem_cons_of_mem m hx)
    cases ms with
    | nil => simp [renderMembers, nul_not_mem_renderString, hm]
    | cons m' ms => simp [renderMembers, nul_not_mem_renderString, hm, ih]

/-- A record is written without NUL if its fields are. -/
theorem nul_not_mem_render_ofFields {fields : List (Text × Json)}
    (h : ∀ f ∈ fields, '\x00' ∉ render f.2) : '\x00' ∉ render (ofFields fields) := by
  have hmembers : '\x00' ∉ renderMembers (fields.map fun f => (pieces f.1, f.2)) := by
    refine nul_not_mem_renderMembers fun m hm => ?_
    obtain ⟨f, hf, rfl⟩ := List.mem_map.mp hm
    exact h f hf
  simp [ofFields, render, hmembers]

theorem nul_not_mem_render_ofNat (n : Nat) : '\x00' ∉ render (ofNat n) := by
  intro hm
  have := List.all_eq_true.mp (Text.all_isDigit_ofNat n) _ hm
  contradiction

end Json

/-- The description of limits has no NUL. -/
theorem Limits.nul_not_mem_describe (limits : Limits) : '\x00' ∉ limits.describe := by
  refine Json.nul_not_mem_render_ofFields fun f hf => ?_
  obtain ⟨n, -, hn⟩ := List.mem_map.mp (List.of_mem_zip hf).2
  rw [← hn]
  exact Json.nul_not_mem_render_ofNat n.toNat

end RamFs
