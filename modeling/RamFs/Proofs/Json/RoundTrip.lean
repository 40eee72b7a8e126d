import RamFs.Json.Records
import RamFs.Proofs.BitNames
import RamFs.Proofs.Json.Reading

/-!
# RamFs.Proofs.Json.RoundTrip

Values of the types with a JSON form are read back from their compact texts.  The reader
of a type looks at the texts that strings denote and at the numbers of numbers, so the
spelling in which a value comes back from its text does not matter (`text?_respelled`,
`fields?_ofFields`); a value is `Faithful` if its JSON form, respelled, is read as the
value again, and then so is its text with any blanks around it (`Faithful.readsBack`).
-/

namespace RamFs

namespace Json

variable {t : Text} {ps : List Piece} {code n bound : Nat} {c : Char}

/-! ## Texts and numbers -/

/-- A unit that is no half of a pair denotes its character, whatever follows. -/
theorem join_unit_cons (hhigh : isHigh code = false) (hlow : isLow code = false)
    (ps : List Piece) : join (.unit code :: ps) = (join ps).map (Char.ofNat code :: ·) := by
  cases ps with
  | nil => simp [join, hhigh, hlow]
  | cons p ps => cases p <;> simp [join, hhigh, hlow]

/-- A character denotes itself in both its spellings. -/
theorem join_respelled_cons (c : Char) (ps : List Piece) :
    join ((Piece.char c).respelled :: ps) = (join ps).map (c :: ·) := by
  rw [Piece.respelled]
  split
  case isFalse => rfl
  case isTrue h =>
    have hcontrol : c.toNat < 0x20 := by
      obtain ⟨e, hc, -⟩ | ⟨-, hcontrol⟩ | ⟨hc, -⟩ := renderChar_cases c
      · simp [hc, hex4] at h
      · exact hcontrol
      · simp [hc] at h
    have hhigh : isHigh c.toNat = false := by simp [isHigh]; omega
    have hlow : isLow c.toNat = false := by simp [isLow]; omega
    rw [join_unit_cons hhigh hlow, Char.ofNat_toNat]

/-- A text comes back from its pieces as they are read. -/
theorem join_respelled_pieces (t : Text) : join ((pieces t).map Piece.respelled) = some t := by
  induction t with
  | nil => rfl
  | cons c t ih =>
    have hcons := join_respelled_cons c ((pieces t).map Piece.respelled)
    rw [ih] at hcons
    exact hcons

/-- A text comes back from its string as it is read. -/
@[simp] theorem text?_respelled (t : Text) : (ofText t).respelled.text? = some t :=
  join_respelled_pieces t

/-- The pieces of a text are well-formed. -/
theorem wellFormed_pieces (t : Text) : ∀ p ∈ pieces t, p.WellFormed := by
  intro p hp
  obtain ⟨c, -, rfl⟩ := List.mem_map.mp hp
  trivial

/-- The string of a text is well-formed. -/
theorem wellFormed_ofText (t : Text) : (ofText t).WellFormed := .string (wellFormed_pieces t)

/-- A natural is spelled like a number. -/
theorem wellFormed_ofNat (n : Nat) : (ofNat n).WellFormed := by
  refine .number ?_
  by_cases hn : n = 0
  · subst hn
    decide
  · obtain ⟨c, t, ht, hc⟩ := Text.exists_ofNat_eq_cons hn
    have hdigits := List.all_eq_true.mp (Text.all_isDigit_ofNat n)
    have hne := Text.ofNat_ne_nil n
    have htake : (Text.ofNat n).takeWhile Char.isDigit = Text.ofNat n :=
      List.takeWhile_eq_self_iff.mpr hdigits
    have hdrop : (Text.ofNat n).dropWhile Char.isDigit = [] := List.dropWhile_eq_nil_iff.mpr hdigits
    have hsign : dropMinus (Text.ofNat n) = Text.ofNat n := by
      rw [ht, dropMinus]
      intro r e
      rw [ht, (List.cons.inj e).1] at hdigits
      exact absurd (hdigits '-' List.mem_cons_self) (by decide)
    have hwhole : dropWhole? (Text.ofNat n) = some [] := by
      rw [ht, dropWhole?]
      · rw [← ht, dropDigits?, htake, hdrop, if_neg (by simpa using hne)]
      · intro r e
        exact hc (List.cons.inj e).1
    rw [isNumber, hsign, hwhole]
    rfl

/-! ## Records and choices -/

/-- Members are read one by one, with their names. -/
theorem respelledMembers_eq (ms : List (List Piece × Json)) :
    respelledMembers ms = ms.map fun m => (m.1.map Piece.respelled, m.2.respelled) := by
  induction ms with
  | nil => rfl
  | cons m ms ih => rw [respelledMembers, ih, List.map_cons]

/-- A record is well-formed if its values are. -/
theorem wellFormed_ofFields (names : List Text) {vs : List Json} (h : ∀ v ∈ vs, v.WellFormed) :
    (ofFields (names.zip vs)).WellFormed := by
  refine .object (fun m hm => ?_) fun m hm => ?_
  all_goals obtain ⟨f, hf, rfl⟩ := List.mem_map.mp hm
  · exact wellFormed_pieces f.1
  · exact h f.2 (List.of_mem_zip hf).2

/-- The members of an object are its fields again. -/
theorem mapM_join_respelled (fields : List (Text × Json)) :
    (respelledMembers (fields.map fun f => (pieces f.1, f.2))).mapM
      (fun m => (join m.1).map (·, m.2)) = some (fields.map fun f => (f.1, f.2.respelled)) := by
  rw [respelledMembers_eq, List.map_map]
  induction fields with
  | nil => rfl
  | cons f fields ih =>
    rw [List.map_cons, List.mapM_cons, ih]
    simp [join_respelled_pieces]

/-- A member is found beside others that have other names. -/
theorem field?_of_apart {before after : List (Text × Json)} {name : Text} (v : Json)
    (hb : ∀ m ∈ before, m.1 ≠ name) (ha : ∀ m ∈ after, m.1 ≠ name) :
    field? (before ++ (name, v) :: after) name = some v := by
  have hnone : ∀ ms : List (Text × Json), (∀ m ∈ ms, m.1 ≠ name) →
      ms.filter (·.1 == name) = [] := by
    intro ms h
    exact List.filter_eq_nil_iff.mpr fun m hm => by simpa using h m hm
  simp [field?, hnone before hb, hnone after ha]

/-- Fields are found by their names, whatever comes before them. -/
theorem mapM_field? {before fields : List (Text × Json)} (apart : (fields.map Prod.fst).Nodup)
    (hb : ∀ m ∈ before, m.1 ∉ fields.map Prod.fst) :
    (fields.map Prod.fst).mapM (field? (before ++ fields)) = some (fields.map Prod.snd) := by
  induction fields generalizing before with
  | nil => rfl
  | cons f fields ih =>
    obtain ⟨name, v⟩ := f
    obtain ⟨hname, apart⟩ := List.nodup_cons.mp apart
    replace hname : name ∉ fields.map Prod.fst := hname
    have hfirst : field? (before ++ (name, v) :: fields) name = some v := by
      refine field?_of_apart v (fun m hm e => hb m hm ?_) fun m hm e => hname ?_
      · exact e ▸ List.mem_cons_self
      · rw [← e]
        exact List.mem_map_of_mem hm
    have hrest : (fields.map Prod.fst).mapM (field? (before ++ (name, v) :: fields)) =
        some (fields.map Prod.snd) := by
      rw [List.append_cons]
      refine ih apart fun m hm => ?_
      obtain hm | hm := List.mem_append.mp hm
      · exact fun h => hb m hm (List.mem_cons_of_mem name h)
      · rw [List.mem_singleton.mp hm]
        exact hname
    rw [List.map_cons, List.mapM_cons, hfirst, hrest]
    rfl

/-- The fields of a record are read back by their names. -/
theorem fields?_ofFields {names : List Text} (apart : names.Nodup) {vs : List Json}
    (h : names.length = vs.length) :
    (ofFields (names.zip vs)).respelled.fields? names = some (vs.map respelled) := by
  have hnames : ((names.zip vs).map fun f => (f.1, f.2.respelled)).map Prod.fst = names := by
    rw [List.map_map]
    exact List.map_fst_zip (Nat.le_of_eq h)
  have hvalues : ((names.zip vs).map fun f => (f.1, f.2.respelled)).map Prod.snd =
      vs.map respelled := by
    conv => rhs; rw [← List.map_snd_zip (Nat.le_of_eq h.symm), List.map_map]
    rw [List.map_map]
    rfl
  have hfields := @mapM_field? [] ((names.zip vs).map fun f => (f.1, f.2.respelled))
    (hnames.symm ▸ apart) (by simp)
  rw [hnames, hvalues] at hfields
  rw [ofFields, respelled, fields?, mapM_join_respelled]
  exact hfields

/-- A choice with data is read back by its name. -/
theorem choice?_ofFields (name : Text) (data : Json) :
    (ofFields [(name, data)]).respelled.choice? = some (name, data.respelled) := by
  have hname := join_respelled_pieces name
  rw [ofFields, respelled]
  simp [respelledMembers, choice?, hname]

/-! ## Reading back -/

/-- Whether a value is read back from its text, whatever blanks are around it. -/
def ReadsBack {α : Type} [Codec α] (a : α) : Prop :=
  ∀ before after, Blanks before → Blanks after → decode? α (before ++ encode a ++ after) = some a

/-- Whether the JSON form of a value can be read, and is read as that value however its
strings are spelled. -/
structure Faithful {α : Type} [Codec α] (a : α) : Prop where
  wellFormed : (Codec.toJson a).WellFormed
  ofJson? : Codec.ofJson? (Codec.toJson a).respelled = some a

/-- A value with a faithful form is read back. -/
theorem Faithful.readsBack {α : Type} [Codec α] {a : α} (h : Faithful a) : ReadsBack a := by
  intro before after hb ha
  rw [decode?, encode, parse?_render h.wellFormed hb ha]
  exact h.ofJson?

end Json

open Json (Faithful wellFormed_ofNat wellFormed_ofText wellFormed_ofFields fields?_ofFields)

/-! ## Limits, handles, kinds and flag sets -/

/-- A number of 64 bits is read back. -/
theorem Limits.word?_ofNat (n : UInt64) : word? (.ofNat n.toNat) = some n := by
  rw [word?, Json.natBelow?_ofNat n.toNat_lt, Option.map_some, UInt64.ofNat_toNat]

theorem Limits.faithful (l : Limits) : Faithful l where
  wellFormed := by
    refine wellFormed_ofFields fieldNames fun v hv => ?_
    obtain ⟨n, -, rfl⟩ := List.mem_map.mp hv
    exact wellFormed_ofNat n.toNat
  ofJson? := by
    have hread : (Codec.toJson l).respelled.fields? fieldNames =
        some [.ofNat l.maxNodes.toNat, .ofNat l.maxChildren.toNat, .ofNat l.maxNameLen.toNat,
          .ofNat l.maxContentLen.toNat] :=
      fields?_ofFields (by decide) rfl
    simp [Codec.ofJson?, hread, word?_ofNat]

/-- Handles that fit have a faithful form. -/
theorem HandleCode.faithful {h : HandleCode} (hh : h.handle < UInt32.size) : Faithful h where
  wellFormed := wellFormed_ofNat h.handle
  ofJson? := by
    change ((Json.ofNat h.handle).natBelow? UInt32.size).map HandleCode.mk = some h
    rw [Json.natBelow?_ofNat hh]
    rfl

theorem Kind.faithful (k : Kind) : Faithful k where
  wellFormed := wellFormed_ofText k.choice
  ofJson? := by cases k <;> rfl

/-- A set has a single bit or it has not. -/
theorem BitNames.and_bit {bit : UInt8} (h : bit ∈ [1, 2, 4]) (bits : UInt8) :
    bits &&& bit = bit ∨ bits &&& bit = 0 := by
  obtain ⟨b⟩ := bits
  revert bit b
  decide +kernel

/-- The names of the permissions can be told apart. -/
theorem Permissions.proper_names : names.Proper where
  isWord := by decide
  barless := by decide
  wordy := by decide
  apart := by decide
  single row hrow := BitNames.and_bit (by revert row; decide)

/-- The names of the flags can be told apart. -/
theorem Flags.proper_names : names.Proper where
  isWord := by decide
  barless := by decide
  wordy := by decide
  apart := by decide
  single row hrow := BitNames.and_bit (by revert row; decide)

/-- Permissions have a faithful form. -/
theorem Permissions.faithful (p : Permissions) : Faithful p where
  wellFormed := wellFormed_ofText p.text
  ofJson? := by
    simp [Codec.ofJson?, Codec.toJson, ofText?, text, proper_names.parse?_render]

/-- Flags have a faithful form. -/
theorem Flags.faithful (f : Flags) : Faithful f where
  wellFormed := wellFormed_ofText f.text
  ofJson? := by
    simp [Codec.ofJson?, Codec.toJson, ofText?, text, proper_names.parse?_render]

/-! ## Entries and reports -/

/-- An entry is read off its fields. -/
theorem Entry.ofJson?_of_fields? {j name kind permissions flags : Json}
    (h : j.fields? fieldNames = some [name, kind, permissions, flags]) :
    (Codec.ofJson? j : Option Entry) = (do
      some ⟨← name.text?, ← Codec.ofJson? kind, ← Codec.ofJson? permissions,
        ← Codec.ofJson? flags⟩) := by
  simp only [Codec.ofJson?, h]

theorem Entry.faithful (e : Entry) : Faithful e where
  wellFormed := by
    refine wellFormed_ofFields fieldNames ?_
    simp [wellFormed_ofText, e.kind.faithful.wellFormed, e.permissions.faithful.wellFormed,
      e.flags.faithful.wellFormed]
  ofJson? := by
    have hread : (Codec.toJson e).respelled.fields? fieldNames =
        some [(Json.ofText e.name).respelled, (Codec.toJson e.kind).respelled,
          (Codec.toJson e.permissions).respelled, (Codec.toJson e.flags).respelled] :=
      fields?_ofFields (by decide) rfl
    rw [ofJson?_of_fields? hread]
    simp [e.kind.faithful.ofJson?, e.permissions.faithful.ofJson?, e.flags.faithful.ofJson?]

/-- A description of a node is read off its fields. -/
theorem Stat.ofJson?_of_fields? {j name kind permissions flags size : Json}
    (h : j.fields? fieldNames = some [name, kind, permissions, flags, size]) :
    (Codec.ofJson? j : Option Stat) = (do
      some ⟨← name.text?, ← Codec.ofJson? kind, ← Codec.ofJson? permissions,
        ← Codec.ofJson? flags, ← size.natBelow? UInt64.size⟩) := by
  simp only [Codec.ofJson?, h]

/-- Descriptions of nodes have a faithful form, if the size fits. -/
theorem Stat.faithful {s : Stat} (hs : s.size < UInt64.size) : Faithful s where
  wellFormed := by
    refine wellFormed_ofFields fieldNames ?_
    simp [wellFormed_ofText, wellFormed_ofNat, s.kind.faithful.wellFormed,
      s.permissions.faithful.wellFormed, s.flags.faithful.wellFormed]
  ofJson? := by
    have hread : (Codec.toJson s).respelled.fields? fieldNames =
        some [(Json.ofText s.name).respelled, (Codec.toJson s.kind).respelled,
          (Codec.toJson s.permissions).respelled, (Codec.toJson s.flags).respelled,
          .ofNat s.size] :=
      fields?_ofFields (by decide) rfl
    rw [ofJson?_of_fields? hread]
    simp [s.kind.faithful.ofJson?, s.permissions.faithful.ofJson?, s.flags.faithful.ofJson?,
      Json.natBelow?_ofNat hs]

/-! ## Errors -/

theorem Denied.faithful (d : Denied) : Faithful d where
  wellFormed := wellFormed_ofText d.choice
  ofJson? := by cases d <;> rfl

theorem FsError.word?_ofNat (n : UInt32) : word? (.ofNat n.toNat) = some n := by
  rw [word?, Json.natBelow?_ofNat n.toNat_lt, Option.map_some, UInt32.ofNat_toNat]

/-- The name of an error with data decides how the data are read. -/
theorem FsError.ofJson?_of_choice? {j : Json} {name : Text} {data : Json}
    (h : j.choice? = some (name, data)) :
    (Codec.ofJson? j : Option FsError) =
      if name = "PermissionDenied".toList then (Codec.ofJson? data).map .permissionDenied
      else if name = "InvalidValue".toList then (word? data).map .invalidValue
      else Json.oneOf? bareChoices j := by
  simp only [Codec.ofJson?, h]

/-- Errors have a faithful form. -/
theorem FsError.faithful (e : FsError) : Faithful e := by
  cases e with
  | permissionDenied why =>
    have hvalues : ∀ v ∈ [Codec.toJson why], v.WellFormed := by
      simpa using why.faithful.wellFormed
    have hchoice : (Codec.toJson (permissionDenied why)).respelled.choice? =
        some ("PermissionDenied".toList, (Codec.toJson why).respelled) :=
      Json.choice?_ofFields _ _
    constructor
    case wellFormed => exact wellFormed_ofFields ["PermissionDenied".toList] hvalues
    case ofJson? =>
      rw [ofJson?_of_choice? hchoice, if_pos rfl, why.faithful.ofJson?]
      rfl
  | invalidValue mode =>
    have hvalues : ∀ v ∈ [Json.ofNat mode.toNat], v.WellFormed := by
      simpa using wellFormed_ofNat mode.toNat
    have hchoice : (Codec.toJson (invalidValue mode)).respelled.choice? =
        some ("InvalidValue".toList, Json.ofNat mode.toNat) :=
      Json.choice?_ofFields _ _
    constructor
    case wellFormed => exact wellFormed_ofFields ["InvalidValue".toList] hvalues
    case ofJson? =>
      rw [ofJson?_of_choice? hchoice, if_neg (by decide), if_pos rfl, word?_ofNat]
      rfl
  | _ => exact ⟨wellFormed_ofText _, rfl⟩

/-! ## Every type -/

namespace Json

/-- **No value changes on its way through its text**: limits, errors, denials, handles of
32 bits, kinds, permissions and flags with any of the eight bits, entries with any name,
and reports with a size of 64 bits are read back from their texts, whatever blanks stand
before and after them. -/
theorem values_are_read_back :
    (∀ l : Limits, ReadsBack l) ∧ (∀ e : FsError, ReadsBack e) ∧ (∀ d : Denied, ReadsBack d) ∧
      (∀ h : HandleCode, h.handle < UInt32.size → ReadsBack h) ∧ (∀ k : Kind, ReadsBack k) ∧
      (∀ p : Permissions, ReadsBack p) ∧ (∀ f : Flags, ReadsBack f) ∧
      (∀ e : Entry, ReadsBack e) ∧ ∀ s : Stat, s.size < UInt64.size → ReadsBack s :=
  ⟨fun l => l.faithful.readsBack, fun e => e.faithful.readsBack, fun d => d.faithful.readsBack,
    fun _ hh => (HandleCode.faithful hh).readsBack, fun k => k.faithful.readsBack,
    fun p => p.faithful.readsBack, fun f => f.faithful.readsBack, fun e => e.faithful.readsBack,
    fun _ hs => (Stat.faithful hs).readsBack⟩

/-- The greatest handle, an error with data, and a report with the greatest size, unnamed
bits in both sets and a quote, a backslash, a control character and a wide character in
its name. -/
theorem values_are_read_back_at_the_edges :
    decode? HandleCode "\t4294967295\n".toList = some ⟨4294967295⟩ ∧
      decode? FsError " \x7b\"PermissionDenied\":\"System\"\x7d\r\n".toList =
        some (.permissionDenied .system) ∧
      decode? Stat (" \x7b\"name\":\"\\\"\\\\\\u0001😀\",\"kind\":\"Directory\",".toList ++
          "\"permissions\":\"WRITE | EXECUTE | 0xf8\",\"flags\":\"HIDDEN | 0xfc\",".toList ++
          "\"size\":18446744073709551615\x7d\n".toList) =
        some ⟨['"', '\\', '\x01', '😀'], .directory, ⟨0xFB⟩, ⟨0xFE⟩, 18446744073709551615⟩ := by
  obtain ⟨-, herror, -, hhandle, -, -, -, -, hstat⟩ := values_are_read_back
  refine ⟨?handle, ?error, ?stat⟩
  case handle => exact hhandle ⟨4294967295⟩ (by decide) ['\t'] ['\n'] (by decide) (by decide)
  case error =>
    exact herror (.permissionDenied .system) [' '] ['\r', '\n'] (by decide) (by decide)
  case stat =>
    have hread := hstat
      ⟨['"', '\\', '\x01', '😀'], .directory, ⟨0xFB⟩, ⟨0xFE⟩, 18446744073709551615⟩ (by decide)
      [' '] ['\n'] (by decide) (by decide)
    convert hread using 2
    decide +kernel

end Json

end RamFs
