import RamFs.Proofs.Json.Reading

/-!
# RamFs.Proofs.Json.Unfinished

A JSON text that breaks off is refused.  What has been read once is read again from every
longer text, as reading looks no further than the last character of a value
(`readValue_extend`); only a number may go on.  So a proper prefix of the compact form of
a value that is no number is not the form of another one: it would have to be read as
that, and then what the prefix lacks would be left over
(`parse?_of_unfinished`).
-/

namespace RamFs

namespace Json

variable {v : Json} {ps : List Piece} {vs : List Json} {ms : List (List Piece × Json)}
  {t rest s : Text} {n m : Nat}

/-! ## Reading on -/

/-- What is not skipped to its end is skipped alike with more text behind it. -/
theorem skip_append (h : skip t ≠ []) (s : Text) : skip (t ++ s) = skip t ++ s := by
  have hmore : (t.dropWhile isBlank).isEmpty = false := List.isEmpty_eq_false_iff.mpr h
  rw [skip, List.dropWhile_append, hmore]
  rfl

/-- The next character is the same with more text behind it. -/
theorem skip_append_of_eq {c : Char} {u : Text} (h : skip t = c :: u) (s : Text) :
    skip (t ++ s) = c :: (u ++ s) := by
  rw [skip_append (h ▸ List.cons_ne_nil c u), h, List.cons_append]

/-- A string is read alike with more text behind it. -/
theorem readString_extend (e : readString t = some (ps, rest)) (s : Text) :
    readString (t ++ s) = some (ps, rest ++ s) := by
  fun_induction readString t generalizing ps rest with
  | case1 => cases e
  | case2 t => cases e; rfl
  | case3 a b c d t ih =>
    obtain ⟨code, hcode, e⟩ := Option.bind_eq_some_iff.mp e
    obtain ⟨⟨qs, r⟩, hr, e⟩ := Option.bind_eq_some_iff.mp e
    cases e
    simp [readString, hcode, ih hr]
  | case4 x t hunit ih =>
    obtain ⟨c, hc, e⟩ := Option.bind_eq_some_iff.mp e
    obtain ⟨⟨qs, r⟩, hr, e⟩ := Option.bind_eq_some_iff.mp e
    cases e
    simp only [List.cons_append, readString_escape hc, ih hr, Option.map_some]
  | case5 => cases e
  | case6 c t hquote hunit hslash hc ih =>
    obtain ⟨⟨qs, r⟩, hr, e⟩ := Option.bind_eq_some_iff.mp e
    cases e
    have hs : c ≠ '\\' := by
      rintro rfl
      cases t with
      | nil => simp [readString] at hr
      | cons x t => exact hslash x t rfl rfl
    simp only [List.cons_append, readString_plain (Nat.le_of_not_lt hc) hquote hs, ih hr,
      Option.map_some]

/-- What is read as a number is one, and ends where it cannot go on. -/
theorem readNumber_eq_some (e : readNumber t = some (v, rest)) :
    ∃ spelling, t = spelling ++ rest ∧ isNumber spelling = true ∧ Ends rest ∧
      v = .number spelling := by
  rw [readNumber] at e
  split at e
  case isFalse => cases e
  case isTrue h =>
    cases e
    refine ⟨_, List.takeWhile_append_dropWhile.symm, h, fun c hc => ?_, rfl⟩
    have hnot := List.head?_dropWhile_not isNumberChar t
    rwa [Option.mem_def.mp hc] at hnot

/-- A number that something follows is complete. -/
theorem readNumber_extend (e : readNumber t = some (v, rest)) (hrest : rest ≠ []) (s : Text) :
    readNumber (t ++ s) = some (v, rest ++ s) := by
  obtain ⟨spelling, rfl, hnumber, hends, rfl⟩ := readNumber_eq_some e
  obtain ⟨c, u, rfl⟩ := List.exists_cons_of_ne_nil hrest
  rw [List.append_assoc]
  exact readNumber_spelling hnumber hends

/-- No value is read from nothing. -/
theorem ne_nil_of_readValue {r : Json × Text} (e : readValue n t = some r) : t ≠ [] := by
  rintro rfl
  cases n <;> cases e

theorem ne_nil_of_readItems {r : List Json × Text} (e : readItems n t = some r) : t ≠ [] := by
  cases n with
  | zero => cases e
  | succ n =>
    rw [readItems] at e
    split at e
    case h_1 => cases e
    case h_2 hv => exact ne_nil_of_readValue hv

theorem ne_nil_of_readMembers {r : List (List Piece × Json) × Text}
    (e : readMembers n t = some r) : t ≠ [] := by
  rintro rfl
  cases n <;> cases e

/-- A value that is a number is over only if something follows it. -/
def Over (v : Json) (rest : Text) : Prop := rest = [] → ∀ spelling, v ≠ .number spelling

/-- A value is over where another character follows. -/
theorem over_of_skip {c : Char} {u : Text} (h : skip rest = c :: u) : Over v rest := by
  rintro rfl
  cases h

/-- What is read with this much fuel is read with more of it from every longer text. -/
def ExtendsValues (n : Nat) : Prop :=
  ∀ m t s v rest, n ≤ m → readValue n t = some (v, rest) → Over v rest →
    readValue m (t ++ s) = some (v, rest ++ s)

def ExtendsItems (n : Nat) : Prop :=
  ∀ m t s vs rest, n ≤ m → readItems n t = some (vs, rest) →
    readItems m (t ++ s) = some (vs, rest ++ s)

def ExtendsMembers (n : Nat) : Prop :=
  ∀ m t s ms rest, n ≤ m → readMembers n t = some (ms, rest) →
    readMembers m (t ++ s) = some (ms, rest ++ s)

/-- Items with one more step, from items and values. -/
theorem ExtendsItems.step (hi : ExtendsItems n) (hv : ExtendsValues n) : ExtendsItems (n + 1) := by
  intro m t s vs rest hm e
  obtain ⟨m, rfl⟩ : ∃ k, m = k + 1 := ⟨m - 1, by omega⟩
  have hm : n ≤ m := by omega
  rw [readItems] at e ⊢
  split at e
  case h_1 => cases e
  case h_2 v u hvalue =>
    split at e
    case h_1 r hskip =>
      cases e
      simp only [hv m t s v u hm hvalue (over_of_skip hskip), skip_append_of_eq hskip]
    case h_2 r hskip =>
      obtain ⟨⟨ws, r'⟩, hrest, e⟩ := Option.map_eq_some_iff.mp e
      cases e
      simp only [hv m t s v u hm hvalue (over_of_skip hskip), skip_append_of_eq hskip,
        skip_append (ne_nil_of_readItems hrest), hi m _ s _ _ hm hrest, Option.map_some]
    case h_3 => cases e

/-- Members with one more step, from members and values. -/
theorem ExtendsMembers.step (hms : ExtendsMembers n) (hv : ExtendsValues n) :
    ExtendsMembers (n + 1) := by
  intro m t s ms rest hm e
  obtain ⟨m, rfl⟩ : ∃ k, m = k + 1 := ⟨m - 1, by omega⟩
  have hm : n ≤ m := by omega
  unfold readMembers at e
  split at e
  case h_2 => cases e
  case h_1 t =>
    split at e
    case h_1 => cases e
    case h_2 k r hk =>
      split at e
      case h_2 => cases e
      case h_1 r' hcolon =>
        split at e
        case h_1 => cases e
        case h_2 v u hvalue =>
          have hname := readString_extend hk s
          have hne := ne_nil_of_readValue hvalue
          split at e
          case h_1 r'' hskip =>
            cases e
            simp only [List.cons_append, readMembers, hname, skip_append_of_eq hcolon,
              skip_append hne, hv m _ s v u hm hvalue (over_of_skip hskip),
              skip_append_of_eq hskip]
          case h_2 r'' hskip =>
            obtain ⟨⟨ws, q⟩, hrest, e⟩ := Option.map_eq_some_iff.mp e
            cases e
            simp only [List.cons_append, readMembers, hname, skip_append_of_eq hcolon,
              skip_append hne, hv m _ s v u hm hvalue (over_of_skip hskip),
              skip_append_of_eq hskip, skip_append (ne_nil_of_readMembers hrest),
              hms m _ s _ _ hm hrest, Option.map_some]
          case h_3 => cases e

/-- Values with one more step, from items and members. -/
theorem ExtendsValues.step (hi : ExtendsItems n) (hms : ExtendsMembers n) :
    ExtendsValues (n + 1) := by
  intro m t s v rest hm e hover
  obtain ⟨m, rfl⟩ : ∃ k, m = k + 1 := ⟨m - 1, by omega⟩
  have hm : n ≤ m := by omega
  unfold readValue at e
  split at e
  case h_1 | h_2 | h_3 => cases e; rfl
  case h_4 t =>
    obtain ⟨⟨ps, r⟩, hr, e⟩ := Option.map_eq_some_iff.mp e
    cases e
    rw [List.cons_append, readValue, readString_extend hr]
    rfl
  case h_5 t =>
    split at e
    case h_1 r hskip =>
      cases e
      rw [List.cons_append, readValue, skip_append_of_eq hskip]
      rfl
    case h_2 hopen =>
      obtain ⟨⟨ws, r⟩, hr, e⟩ := Option.map_eq_some_iff.mp e
      cases e
      obtain ⟨c, u, hu⟩ := List.exists_cons_of_ne_nil (ne_nil_of_readItems hr)
      have hread := hi m _ s _ _ hm hr
      rw [hu, List.cons_append] at hread
      rw [List.cons_append, readValue_bracket (skip_append_of_eq hu s), hread]
      · rfl
      · rintro rfl
        exact hopen u hu
  case h_6 t =>
    split at e
    case h_1 r hskip =>
      cases e
      rw [List.cons_append, readValue, skip_append_of_eq hskip]
      rfl
    case h_2 hopen =>
      obtain ⟨⟨ws, r⟩, hr, e⟩ := Option.map_eq_some_iff.mp e
      cases e
      obtain ⟨c, u, hu⟩ := List.exists_cons_of_ne_nil (ne_nil_of_readMembers hr)
      have hread := hms m _ s _ _ hm hr
      rw [hu, List.cons_append] at hread
      rw [List.cons_append, readValue_brace (skip_append_of_eq hu s), hread]
      · rfl
      · rintro rfl
        exact hopen u hu
  case h_7 =>
    obtain ⟨spelling, rfl, hnumber, -, rfl⟩ := readNumber_eq_some e
    obtain ⟨c, u, rfl, hc⟩ := exists_startsNumber hnumber
    -- a number ends by what follows it, so there has to be something
    have hrest : rest ≠ [] := fun h => hover h _ rfl
    rw [List.cons_append, List.cons_append, readValue_of_startsNumber hc]
    exact readNumber_extend e hrest s

/-- **Reading on**: what has been read is read again from every longer text. -/
theorem readValue_extend (hm : n ≤ m) (e : readValue n t = some (v, rest)) (hover : Over v rest)
    (s : Text) : readValue m (t ++ s) = some (v, rest ++ s) := by
  have hall : ExtendsValues n ∧ ExtendsItems n ∧ ExtendsMembers n := by
    clear hm e hover
    induction n with
    | zero => exact ⟨fun _ _ _ _ _ _ => nofun, fun _ _ _ _ _ _ => nofun, fun _ _ _ _ _ _ => nofun⟩
    | succ n ih =>
      obtain ⟨hv, hi, hms⟩ := ih
      exact ⟨.step hi hms, hi.step hv, hms.step hv⟩
  exact hall.1 m t s v rest hm e hover

/-! ## Texts that break off -/

/-- Only a text that starts like a number is read as one. -/
theorem startsNumber_of_readValue {c : Char} {spelling : Text}
    (e : readValue n (c :: t) = some (.number spelling, rest)) : StartsNumber c := by
  cases n with
  | zero => cases e
  | succ n =>
    unfold readValue at e
    split at e
    case h_1 | h_2 | h_3 => cases e
    case h_4 => simp at e
    case h_5 | h_6 => split at e <;> simp at e
    case h_7 =>
      obtain ⟨spelling', hs, hnumber, -⟩ := readNumber_eq_some e
      obtain ⟨d, u, rfl, hd⟩ := exists_startsNumber hnumber
      rw [List.cons_append] at hs
      exact (List.cons.inj hs).1 ▸ hd

/-- Only numbers start like one. -/
theorem eq_number_of_startsNumber {c : Char} (hc : StartsNumber c) (hv : v.render = c :: t) :
    ∃ spelling, v = .number spelling := by
  cases v with
  | number spelling => exact ⟨spelling, rfl⟩
  | bool b => cases b <;> exact absurd (List.cons.inj hv).1.symm (hc.ne (by decide))
  | null | string | array | object => exact absurd (List.cons.inj hv).1.symm (hc.ne (by decide))

/-- A proper prefix of the compact form of a value is not the form of any value, unless
the value is a number. -/
theorem parse?_of_unfinished {p : Text} (hv : v.WellFormed)
    (hcontainer : ∀ spelling, v ≠ .number spelling) (hp : p <+: v.render) (hne : p ≠ v.render) :
    parse? p = none := by
  obtain ⟨s, hs⟩ := hp
  have hmissing : s ≠ [] := by
    rintro rfl
    exact hne (by rw [← hs, List.append_nil])
  cases p with
  | nil => rfl
  | cons c u =>
    obtain ⟨d, r, hd, hblank, -⟩ := exists_render_eq_cons hv
    have hc : isBlank c = false := by
      rw [hd, List.cons_append] at hs
      rwa [(List.cons.inj hs).1]
    rw [parse?, skip_cons hc]
    split
    case h_2 => rfl
    case h_1 w rest hread =>
      have hover : Over w rest := by
        rintro - spelling rfl
        obtain ⟨spelling', hnumber⟩ :=
          eq_number_of_startsNumber (startsNumber_of_readValue hread) hs.symm
        exact hcontainer spelling' hnumber
      have hfuel : 2 * (c :: u).length + 1 ≤ 2 * v.render.length := by
        have := List.length_pos_iff.mpr hmissing
        rw [← hs, List.length_append]
        omega
      have hlong := readValue_extend hfuel hread hover s
      have hwhole : readValue (2 * v.render.length) (v.render ++ []) = some (v.respelled, []) :=
        readValue_render hv (by simp [Ends]) (Nat.le_refl _)
      rw [List.append_nil] at hwhole
      rw [hs, hwhole] at hlong
      -- nothing is left after the whole form, but the missing part would be
      have hnone : rest ++ s = [] := (congrArg Prod.snd (Option.some.inj hlong)).symm
      exact absurd (List.append_eq_nil_iff.mp hnone).2 hmissing

end Json

end RamFs
