import Mathlib.Data.List.TakeWhile
import RamFs.Json.Reader

/-!
# RamFs.Proofs.Json.Reading

The compact form of a JSON value is read back.  A value is `WellFormed` if its numbers
are spelled like numbers and its escaped units have four digits.  Reading gives the value
back but for the spelling of its strings: a control character without a short escape is
written as a unit and comes back as one (`respelled`), which denotes the same text.

The reader is given what follows the value as well, so that the values of an array or of
an object can be read one after another (`readValue_render`).  A number is the only value
that what follows could make longer (`Ends`).
-/

namespace RamFs

/-! ## What is written and what comes back -/

namespace Piece

/-- An escaped unit has four hexadecimal digits. -/
def WellFormed : Piece → Prop
  | .char _ => True
  | .unit code => code < 0x10000

/-- A piece as it is read from where it was written. -/
def respelled : Piece → Piece
  | .char c =>
    if Json.renderChar c = '\\' :: 'u' :: Json.hex4 c.toNat then .unit c.toNat else .char c
  | .unit code => .unit code

end Piece

namespace Json

/-- Whether numbers are spelled like numbers and units have four digits, all the way
down. -/
inductive WellFormed : Json → Prop
  | null : WellFormed .null
  | bool (b : Bool) : WellFormed (.bool b)
  | number {spelling : Text} (spelled : isNumber spelling = true) : WellFormed (.number spelling)
  | string {ps : List Piece} (pieces : ∀ p ∈ ps, p.WellFormed) : WellFormed (.string ps)
  | array {vs : List Json} (items : ∀ v ∈ vs, WellFormed v) : WellFormed (.array vs)
  | object {ms : List (List Piece × Json)} (names : ∀ m ∈ ms, ∀ p ∈ m.1, p.WellFormed)
      (values : ∀ m ∈ ms, WellFormed m.2) : WellFormed (.object ms)

mutual

/-- A value as it is read from its compact form. -/
def respelled : Json → Json
  | .null => .null
  | .bool b => .bool b
  | .number spelling => .number spelling
  | .string ps => .string (ps.map Piece.respelled)
  | .array items => .array (respelledItems items)
  | .object members => .object (respelledMembers members)

/-- The items of an array as they are read. -/
def respelledItems : List Json → List Json
  | [] => []
  | v :: vs => respelled v :: respelledItems vs

/-- The members of an object as they are read. -/
def respelledMembers : List (List Piece × Json) → List (List Piece × Json)
  | [] => []
  | (k, v) :: ms => (k.map Piece.respelled, respelled v) :: respelledMembers ms

end

variable {v : Json} {p : Piece} {ps k : List Piece} {vs : List Json}
  {ms : List (List Piece × Json)} {t rest spelling : Text} {code n fuel : Nat} {c : Char}

/-! ## Strings -/

/-- A unit is read back from its four digits. -/
theorem hexDigits?_hex4 (h : code < 0x10000) : Text.hexDigits? (hex4 code) = some code := by
  have hdigit : ∀ m : Nat, Text.hexDigit? (Nat.digitChar (m % 16)) = some (m % 16) :=
    fun m => Text.hexDigit?_digitChar _ (Nat.mod_lt m (by decide))
  have hvalue : (((0 * 16 + code / 4096 % 16) * 16 + code / 256 % 16) * 16 + code / 16 % 16) * 16 +
      code % 16 = code := by omega
  simp only [hex4, Text.hexDigits?, List.mapM_cons, List.mapM_nil, hdigit, Option.pure_def,
    Option.bind_eq_bind, Option.bind_some, Option.map_some, List.foldl_cons, List.foldl_nil, hvalue]

/-- An escaped code unit is read as one. -/
theorem readString_unit (h : code < 0x10000) (t : Text) :
    readString ('\\' :: 'u' :: hex4 code ++ t) =
      (readString t).map fun r => (.unit code :: r.1, r.2) := by
  have hcode := hexDigits?_hex4 h
  rw [hex4] at hcode
  simp only [hex4, List.cons_append, List.nil_append, readString, hcode, Option.bind_eq_bind,
    Option.bind_some]
  cases readString t <;> rfl

/-- A character is written as a short escape, as a unit or as it is. -/
theorem renderChar_cases (c : Char) :
    (∃ e, renderChar c = ['\\', e] ∧ shortEscape? e = some c) ∨
      renderChar c = '\\' :: 'u' :: hex4 c.toNat ∧ c.toNat < 0x20 ∨
      renderChar c = [c] ∧ 0x20 ≤ c.toNat ∧ c ≠ '"' ∧ c ≠ '\\' := by
  unfold renderChar
  split
  case h_8 hquote hslash _ _ _ _ _ =>
    split
    case isTrue hc => exact Or.inr (Or.inl ⟨rfl, hc⟩)
    case isFalse hc => exact Or.inr (Or.inr ⟨rfl, Nat.le_of_not_lt hc, hquote, hslash⟩)
  all_goals exact Or.inl ⟨_, rfl, rfl⟩

/-- A short escape is read as its character. -/
theorem readString_escape {e : Char} (h : shortEscape? e = some c) (t : Text) :
    readString ('\\' :: e :: t) = (readString t).map fun r => (.char c :: r.1, r.2) := by
  have hu : e ≠ 'u' := by
    rintro rfl
    contradiction
  rw [readString]
  · simp only [h, Option.bind_eq_bind, Option.bind_some]
    cases readString t <;> rfl
  · rintro a b d f r rfl
    exact absurd rfl hu

/-- A character that needs no escape is read as itself. -/
theorem readString_plain (hc : 0x20 ≤ c.toNat) (hquote : c ≠ '"') (hslash : c ≠ '\\') (t : Text) :
    readString (c :: t) = (readString t).map fun r => (.char c :: r.1, r.2) := by
  rw [readString]
  · rw [if_neg (Nat.not_lt.mpr hc)]
    cases readString t <;> rfl
  · exact hquote
  · rintro a b d f r rfl
    exact absurd rfl hslash
  · rintro e r rfl
    exact absurd rfl hslash

/-- A piece is taken off the string that it was put before. -/
theorem readString_renderPiece (h : p.WellFormed) (t : Text) :
    readString (renderPiece p ++ t) =
      (readString t).map fun r => (p.respelled :: r.1, r.2) := by
  cases p with
  | unit code => exact readString_unit h t
  | char c =>
    rw [renderPiece, Piece.respelled]
    obtain ⟨e, hc, he⟩ | ⟨hc, hlow⟩ | ⟨hc, hhigh, hquote, hslash⟩ := renderChar_cases c
    · have hunit : ['\\', e] ≠ '\\' :: 'u' :: hex4 c.toNat := by simp [hex4]
      rw [hc, if_neg hunit]
      exact readString_escape he t
    · rw [hc, if_pos rfl]
      exact readString_unit (Nat.lt_trans hlow (by decide)) t
    · have hunit : [c] ≠ '\\' :: 'u' :: hex4 c.toNat := by simp
      rw [hc, if_neg hunit]
      exact readString_plain hhigh hquote hslash t

/-- A string is read up to the quote that was put after it. -/
theorem readString_render (h : ∀ p ∈ ps, p.WellFormed) (t : Text) :
    readString (ps.flatMap renderPiece ++ '"' :: t) = some (ps.map Piece.respelled, t) := by
  induction ps with
  | nil => rfl
  | cons p ps ih =>
    have ih := ih fun x hx => h x (List.mem_cons_of_mem p hx)
    rw [List.flatMap_cons, List.append_assoc, readString_renderPiece (h p List.mem_cons_self), ih]
    rfl

/-! ## Numbers -/

/-- What follows a number does not go on with it. -/
def Ends (t : Text) : Prop := ∀ c ∈ t.head?, isNumberChar c = false

/-- A character that numbers are read from. -/
def StartsNumber (c : Char) : Prop := c.isDigit = true ∨ c = '-'

instance (c : Char) : Decidable (StartsNumber c) := inferInstanceAs (Decidable (_ ∨ _))

/-- A character that may start a number is none that may not. -/
theorem StartsNumber.ne {d : Char} (hc : StartsNumber c) (hd : ¬ StartsNumber d) : c ≠ d := by
  rintro rfl
  exact hd hc

/-- What a reader of a part of a number leaves comes after characters of numbers. -/
def Drops (drop? : Text → Option Text) : Prop :=
  ∀ t rest, drop? t = some rest → ∃ front, t = front ++ rest ∧ ∀ c ∈ front, isNumberChar c = true

theorem isNumberChar_of_isDigit (h : c.isDigit = true) : isNumberChar c = true := by
  simp [isNumberChar, h]

theorem drops_some (t : Text) : ∃ front, t = front ++ t ∧ ∀ c ∈ front, isNumberChar c = true :=
  ⟨[], rfl, nofun⟩

/-- Dropping one thing after another. -/
theorem Drops.bind {f g : Text → Option Text} (hf : Drops f) (hg : Drops g) :
    Drops fun t => f t >>= g := by
  intro t rest e
  obtain ⟨u, hu, hrest⟩ := Option.bind_eq_some_iff.mp e
  obtain ⟨a, rfl, ha⟩ := hf t u hu
  obtain ⟨b, rfl, hb⟩ := hg u rest hrest
  refine ⟨a ++ b, (List.append_assoc a b rest).symm, fun c hc => ?_⟩
  exact (List.mem_append.mp hc).elim (ha c) (hb c)

/-- A reader may take a character of numbers first. -/
theorem Drops.cons {f : Text → Option Text} (hf : Drops f) (hc : isNumberChar c = true)
    (e : f t = some rest) :
    ∃ front, c :: t = front ++ rest ∧ ∀ x ∈ front, isNumberChar x = true := by
  obtain ⟨front, rfl, h⟩ := hf t rest e
  exact ⟨c :: front, rfl, List.forall_mem_cons.mpr ⟨hc, h⟩⟩

theorem drops_digits : Drops dropDigits? := by
  intro t rest e
  rw [dropDigits?] at e
  split at e
  case isTrue => cases e
  case isFalse =>
    cases e
    refine ⟨t.takeWhile Char.isDigit, List.takeWhile_append_dropWhile.symm, fun c hc => ?_⟩
    exact isNumberChar_of_isDigit (List.mem_takeWhile_imp hc)

theorem drops_whole : Drops dropWhole? := by
  intro t rest e
  unfold dropWhole? at e
  split at e
  case h_1 t => exact Drops.cons (f := some) (fun t _ e => by cases e; exact drops_some t) rfl e
  case h_2 => exact drops_digits t rest e

/-- The fraction of a number is dropped. -/
theorem drops_fraction : Drops dropFraction? := by
  intro t rest e
  unfold dropFraction? at e
  split at e
  case h_1 => exact drops_digits.cons rfl e
  case h_2 => cases e; exact drops_some t

theorem drops_sign : Drops fun t => some (dropSign t) := by
  intro t rest e
  cases e
  unfold dropSign
  split
  case h_1 t | h_2 t => exact ⟨[_], rfl, by simp [isNumberChar]⟩
  case h_3 => exact drops_some t

/-- The exponent of a number is dropped. -/
theorem drops_exponent : Drops dropExponent? := by
  intro t rest e
  unfold dropExponent? at e
  split at e
  case h_1 | h_2 => exact (drops_sign.bind drops_digits).cons rfl e
  case h_3 => cases e; exact drops_some t

theorem drops_minus : Drops fun t => some (dropMinus t) := by
  intro t rest e
  cases e
  unfold dropMinus
  split
  case h_1 t => exact ⟨[_], rfl, by simp [isNumberChar]⟩
  case h_2 => exact drops_some t

/-- A number has no other characters than those of numbers. -/
theorem isNumberChar_of_isNumber (h : isNumber spelling = true) :
    ∀ c ∈ spelling, isNumberChar c = true := by
  have hdrops := ((drops_minus.bind drops_whole).bind drops_fraction).bind drops_exponent
  obtain ⟨front, hfront, hall⟩ := hdrops spelling [] (by simpa [isNumber] using h)
  rwa [hfront, List.append_nil]

/-- A number starts with a digit or a minus sign. -/
theorem exists_startsNumber (h : isNumber spelling = true) :
    ∃ c t, spelling = c :: t ∧ StartsNumber c := by
  cases spelling with
  | nil => exact absurd h (by decide)
  | cons c t =>
    refine ⟨c, t, rfl, ?_⟩
    by_contra hc
    obtain ⟨hdigit, hminus⟩ := not_or.mp hc
    have hdrop : dropMinus (c :: t) = c :: t := by
      rw [dropMinus]
      intro r e
      injection e with hc
      exact hminus hc
    have hwhole : dropWhole? (c :: t) = none := by
      rw [dropWhole?]
      · simp [dropDigits?, hdigit]
      · intro r e
        injection e with hc
        exact hdigit (hc ▸ rfl)
    rw [isNumber, hdrop, hwhole] at h
    contradiction

/-- A number is read up to where it ends. -/
theorem readNumber_spelling (h : isNumber spelling = true) (hrest : Ends rest) :
    readNumber (spelling ++ rest) = some (.number spelling, rest) := by
  have hall := isNumberChar_of_isNumber h
  have hnone : rest.takeWhile isNumberChar = [] ∧ rest.dropWhile isNumberChar = rest := by
    cases rest with
    | nil => exact ⟨rfl, rfl⟩
    | cons c rest => simp [hrest c rfl]
  rw [readNumber, List.takeWhile_append_of_pos hall, List.dropWhile_append_of_pos hall, hnone.1,
    hnone.2, List.append_nil]
  exact if_pos h

/-- A value that starts like a number is one. -/
theorem readValue_of_startsNumber (hc : StartsNumber c) (fuel : Nat) (t : Text) :
    readValue (fuel + 1) (c :: t) = readNumber (c :: t) := by
  rw [readValue]
  all_goals
    intros
    injections
    exact absurd ‹_› (hc.ne (by decide))

/-! ## Values -/

/-- No white space is skipped before another character. -/
theorem skip_cons (hc : isBlank c = false) (t : Text) : skip (c :: t) = c :: t :=
  List.dropWhile_cons_of_neg (by simp [hc])

/-- A value starts with a character that is neither blank nor the end of an array. -/
theorem exists_render_eq_cons (h : v.WellFormed) :
    ∃ c t, v.render = c :: t ∧ isBlank c = false ∧ c ≠ ']' := by
  have hnumber : ∀ c, StartsNumber c → isBlank c = false ∧ c ≠ ']' := by
    intro c hc
    refine ⟨?_, hc.ne (by decide)⟩
    simp [isBlank, hc.ne (d := ' ') (by decide), hc.ne (d := '\n') (by decide),
      hc.ne (d := '\t') (by decide), hc.ne (d := '\r') (by decide)]
  cases h with
  | null => exact ⟨'n', "ull".toList, rfl, by decide⟩
  | bool b =>
    cases b with
    | true => exact ⟨'t', "rue".toList, rfl, by decide⟩
    | false => exact ⟨'f', "alse".toList, rfl, by decide⟩
  | number spelled =>
    obtain ⟨c, t, rfl, hc⟩ := exists_startsNumber spelled
    exact ⟨c, t, rfl, hnumber c hc⟩
  | string => exact ⟨'"', _, rfl, by decide⟩
  | array => exact ⟨'[', _, rfl, by decide⟩
  | object => exact ⟨'\x7b', _, rfl, by decide⟩

/-- Items with a comma between them. -/
theorem renderItems_cons_cons (v w : Json) (vs : List Json) :
    renderItems (v :: w :: vs) = v.render ++ ',' :: renderItems (w :: vs) := rfl

theorem renderMembers_cons_cons (k : List Piece) (v : Json) (m : List Piece × Json)
    (ms : List (List Piece × Json)) :
    renderMembers ((k, v) :: m :: ms) =
      renderString k ++ ':' :: v.render ++ ',' :: renderMembers (m :: ms) := rfl

/-- Items start like their first one. -/
theorem exists_renderItems_eq_cons (h : v.WellFormed) (vs : List Json) :
    ∃ c t, renderItems (v :: vs) = c :: t ∧ isBlank c = false ∧ c ≠ ']' := by
  obtain ⟨c, t, hv, hc⟩ := exists_render_eq_cons h
  cases vs with
  | nil => exact ⟨c, t, hv, hc⟩
  | cons w vs => exact ⟨c, t ++ ',' :: renderItems (w :: vs), by
      rw [renderItems_cons_cons, hv, List.cons_append], hc⟩

/-- Members start with the quote of the first name. -/
theorem exists_renderMembers_eq_cons (m : List Piece × Json) (ms : List (List Piece × Json)) :
    ∃ t, renderMembers (m :: ms) = '"' :: t := by
  cases ms with
  | nil => exact ⟨_, rfl⟩
  | cons m' ms => exact ⟨_, rfl⟩

/-- A bracket that is not closed at once opens items. -/
theorem readValue_bracket (h : skip t = c :: rest) (hc : c ≠ ']') (fuel : Nat) :
    readValue (fuel + 1) ('[' :: t) =
      (readItems fuel (c :: rest)).map fun r => (.array r.1, r.2) := by
  rw [readValue, h]
  split
  case h_1 e => exact absurd (List.cons.inj e).1 hc
  case h_2 => rfl

/-- An opening brace that no closing one follows begins the members of an object. -/
theorem readValue_brace (h : skip t = c :: rest) (hc : c ≠ '\x7d') (fuel : Nat) :
    readValue (fuel + 1) ('\x7b' :: t) =
      (readMembers fuel (c :: rest)).map fun r => (.object r.1, r.2) := by
  rw [readValue, h]
  split
  case h_1 e => exact absurd (List.cons.inj e).1 hc
  case h_2 => rfl

/-! ## Reading what was written -/

/-- With this much fuel every well-formed value is read back from twice as many
characters. -/
def ReadsValues (fuel : Nat) : Prop :=
  ∀ v rest, WellFormed v → Ends rest → 2 * v.render.length ≤ fuel →
    readValue fuel (v.render ++ rest) = some (v.respelled, rest)

def ReadsItems (fuel : Nat) : Prop :=
  ∀ v vs rest, (∀ w ∈ v :: vs, WellFormed w) → 2 * (renderItems (v :: vs)).length < fuel →
    readItems fuel (renderItems (v :: vs) ++ ']' :: rest) = some (respelledItems (v :: vs), rest)

def ReadsMembers (fuel : Nat) : Prop :=
  ∀ m ms rest, (∀ n ∈ m :: ms, ∀ p ∈ n.1, p.WellFormed) → (∀ n ∈ m :: ms, WellFormed n.2) →
    2 * (renderMembers (m :: ms)).length < fuel →
    readMembers fuel (renderMembers (m :: ms) ++ '\x7d' :: rest) =
      some (respelledMembers (m :: ms), rest)

/-- An item is read up to the comma or the bracket after it. -/
theorem ReadsItems.step (hi : ReadsItems fuel) (hv : ReadsValues fuel) : ReadsItems (fuel + 1) := by
  intro v vs rest hwf hfuel
  have hwv := hwf v List.mem_cons_self
  cases vs with
  | nil =>
    rw [renderItems] at hfuel ⊢
    have hread := hv v (']' :: rest) hwv (by simp [Ends, isNumberChar]) (by omega)
    rw [readItems, hread]
    rfl
  | cons w vs =>
    have hwvs : ∀ u ∈ w :: vs, WellFormed u := fun u hu => hwf u (List.mem_cons_of_mem v hu)
    rw [renderItems_cons_cons] at hfuel ⊢
    rw [List.length_append, List.length_cons] at hfuel
    have hread := hv v (',' :: (renderItems (w :: vs) ++ ']' :: rest)) hwv
      (by simp [Ends, isNumberChar]) (by omega)
    have hrest := hi w vs rest hwvs (by omega)
    obtain ⟨c, t, ht, hc, -⟩ := exists_renderItems_eq_cons (hwvs w List.mem_cons_self) vs
    rw [List.append_assoc, List.cons_append, readItems, hread]
    rw [ht, List.cons_append] at hrest ⊢
    simp only [skip_cons (c := ',') rfl, skip_cons hc, hrest]
    rfl

/-- A member is read up to the comma or the brace after it. -/
theorem ReadsMembers.step (hm : ReadsMembers fuel) (hv : ReadsValues fuel) :
    ReadsMembers (fuel + 1) := by
  rintro ⟨k, v⟩ ms rest hnames hvalues hfuel
  have hwv := hvalues (k, v) List.mem_cons_self
  have hname := readString_render (hnames (k, v) List.mem_cons_self)
  obtain ⟨c, u, hu, hc, -⟩ := exists_render_eq_cons hwv
  cases ms with
  | nil =>
    rw [renderMembers] at hfuel ⊢
    simp only [List.length_append, List.length_cons] at hfuel
    have hread := hv v ('\x7d' :: rest) hwv (by simp [Ends, isNumberChar]) (by omega)
    rw [hu, List.cons_append] at hread
    rw [renderString, hu]
    simp only [List.cons_append, List.append_assoc, List.nil_append, readMembers, hname,
      skip_cons (c := ':') rfl, skip_cons hc, hread]
    rfl
  | cons m ms =>
    have hnames := fun n hn => hnames n (List.mem_cons_of_mem (k, v) hn)
    have hvalues := fun n hn => hvalues n (List.mem_cons_of_mem (k, v) hn)
    rw [renderMembers_cons_cons] at hfuel ⊢
    simp only [List.length_append, List.length_cons] at hfuel
    have hread := hv v (',' :: (renderMembers (m :: ms) ++ '\x7d' :: rest)) hwv
      (by simp [Ends, isNumberChar]) (by omega)
    have hrest := hm m ms rest hnames hvalues (by omega)
    obtain ⟨t, ht⟩ := exists_renderMembers_eq_cons m ms
    rw [hu, List.cons_append] at hread
    rw [ht, List.cons_append] at hrest hread
    rw [renderString, hu, ht]
    simp only [List.cons_append, List.append_assoc, List.nil_append, readMembers, hname,
      skip_cons (c := ':') rfl, skip_cons hc, hread, skip_cons (c := ',') rfl,
      skip_cons (c := '"') rfl, hrest]
    rfl

/-- Values are read with one more step if items and members are. -/
theorem ReadsValues.step (hi : ReadsItems fuel) (hm : ReadsMembers fuel) :
    ReadsValues (fuel + 1) := by
  intro v rest hwf hrest hfuel
  cases hwf with
  | null => rfl
  | bool b => cases b <;> rfl
  | number spelled =>
    obtain ⟨c, t, hs, hc⟩ := exists_startsNumber spelled
    have hread := readNumber_spelling spelled hrest
    rw [render, respelled]
    rw [hs, List.cons_append] at hread ⊢
    rw [readValue_of_startsNumber hc, hread]
  | @string ps pieces =>
    have hread := readString_render pieces rest
    rw [render, renderString, List.cons_append, List.cons_append, List.append_assoc,
      List.singleton_append, readValue, hread]
    rfl
  | @array vs items =>
    cases vs with
    | nil => rfl
    | cons v vs =>
      obtain ⟨c, t, ht, hblank, hc⟩ := exists_renderItems_eq_cons (items v List.mem_cons_self) vs
      rw [render] at hfuel ⊢
      simp only [List.length_cons, List.length_append] at hfuel
      have hread := hi v vs rest items (by omega)
      rw [ht, List.cons_append] at hread
      rw [ht]
      simp only [List.cons_append, List.append_assoc, List.nil_append,
        readValue_bracket (skip_cons hblank _) hc, hread]
      rfl
  | @object ms names values =>
    cases ms with
    | nil => rfl
    | cons m ms =>
      obtain ⟨t, ht⟩ := exists_renderMembers_eq_cons m ms
      rw [render] at hfuel ⊢
      simp only [List.length_cons, List.length_append] at hfuel
      have hread := hm m ms rest names values (by omega)
      rw [ht, List.cons_append] at hread
      rw [ht]
      simp only [List.cons_append, List.append_assoc, List.nil_append,
        readValue_brace (skip_cons (c := '"') rfl _) (by decide), hread]
      rfl

/-- **Reading**: a value is read back from its compact form, whatever follows it. -/
theorem readValue_render (hv : v.WellFormed) (hrest : Ends rest)
    (hfuel : 2 * v.render.length ≤ fuel) :
    readValue fuel (v.render ++ rest) = some (v.respelled, rest) := by
  have hall : ReadsValues fuel ∧ ReadsItems fuel ∧ ReadsMembers fuel := by
    clear hfuel
    induction fuel with
    | zero =>
      refine ⟨fun v rest h _ hfuel => ?_, fun _ _ _ _ hfuel => ?_, fun _ _ _ _ _ hfuel => ?_⟩
      · obtain ⟨c, t, ht, -⟩ := exists_render_eq_cons h
        rw [ht, List.length_cons] at hfuel
        omega
      · exact absurd hfuel (Nat.not_lt_zero _)
      · exact absurd hfuel (Nat.not_lt_zero _)
    | succ fuel ih =>
      obtain ⟨hv, hi, hm⟩ := ih
      exact ⟨.step hi hm, hi.step hv, hm.step hv⟩
  exact hall.1 v rest hv hrest hfuel

/-- A text of the blanks that may stand around a value. -/
def Blanks (t : Text) : Prop := ∀ c ∈ t, isBlank c = true

instance (t : Text) : Decidable (Blanks t) := List.decidableBAll _ t

/-- White space ends a number. -/
theorem ends_of_blanks (h : Blanks t) : Ends t := by
  intro c hc
  have hblank := h c (List.mem_of_mem_head? hc)
  simp only [isBlank, Bool.or_eq_true, beq_iff_eq] at hblank
  obtain ((rfl | rfl) | rfl) | rfl := hblank <;> rfl

/-- Nothing is left exactly of white space. -/
theorem skip_eq_nil_iff : skip t = [] ↔ Blanks t := List.dropWhile_eq_nil_iff

/-- A document is a value with any blanks around it. -/
theorem parse?_render {before after : Text} (hv : v.WellFormed) (hb : Blanks before)
    (ha : Blanks after) : parse? (before ++ v.render ++ after) = some v.respelled := by
  obtain ⟨c, t, ht, hc, -⟩ := exists_render_eq_cons hv
  have hskip : skip (before ++ v.render ++ after) = v.render ++ after := by
    rw [List.append_assoc, skip, List.dropWhile_append_of_pos hb, ht]
    exact skip_cons hc _
  have hlength : 2 * v.render.length ≤ 2 * (before ++ v.render ++ after).length + 1 := by
    simp only [List.length_append]
    omega
  rw [parse?, hskip, readValue_render hv (ends_of_blanks ha) hlength]
  exact if_pos (skip_eq_nil_iff.mpr ha)

end Json

end RamFs
