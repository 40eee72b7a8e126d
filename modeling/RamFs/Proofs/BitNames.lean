import RamFs.Node.BitNames
import RamFs.Proofs.Command.Spaced

/-!
# RamFs.Proofs.BitNames

Sets of named bits are read back from their texts, whatever bits they have
(`BitNames.parse?_render`).  The names of a table must be told apart from each other and
from numbers, and each must stand for a single bit (`BitNames.Proper`): of a name for
several bits that are set in part nothing would be written.

The bars between the words are found again because no word holds one, and the blanks
around the bars are trimmed off; then every word gives the bits that it was written for,
and together they are the named bits of the set and the rest.
-/

namespace RamFs

namespace Text

variable {t w gap gap' : Text} {ws : List Text}

/-! ## Words between bars -/

/-- Blanks after a text are trimmed with it. -/
theorem trimEnd_append (hg : AllBlank gap) (t : Text) : trimEnd (t ++ gap) = trimEnd t := by
  have hback : AllBlank gap.reverse := fun c hc => hg c (List.mem_reverse.mp hc)
  rw [trimEnd, List.reverse_append, List.dropWhile_append_of_pos hback, trimEnd]

/-- Only blanks are trimmed to nothing. -/
theorem allBlank_of_trim (h : trim t = []) : AllBlank t := by
  have hback : AllBlank (trimStart t).reverse :=
    List.dropWhile_eq_nil_iff.mp (List.reverse_eq_nil_iff.mp h)
  intro c hc
  rw [← List.takeWhile_append_dropWhile (p := isBlank) (l := t)] at hc
  obtain hc | hc := List.mem_append.mp hc
  · exact List.mem_takeWhile_imp hc
  · exact hback c (List.mem_reverse.mpr hc)

/-- A word is what is left of it between blanks. -/
theorem trim_of_isWord (hw : IsWord w) (hg : AllBlank gap) (hg' : AllBlank gap') :
    trim (gap ++ w ++ gap') = w := by
  have hstart : trimStart (w ++ gap') = w ++ gap' := by
    cases w with
    | nil => exact absurd rfl hw.1
    | cons c w =>
      refine trimStart_of_unindented fun x hx => ?_
      cases hx
      exact hw.2 c List.mem_cons_self
  have hend : trimEnd w = w := by
    have hback : trimStart w.reverse = w.reverse :=
      trimStart_eq_self fun c hc => hw.2 c (List.mem_reverse.mp hc)
    rw [trimEnd, ← trimStart, hback, List.reverse_reverse]
  rw [trim, List.append_assoc, trimStart_append hg, hstart, trimEnd_append hg', hend]

/-- Words with bars between them, and blanks around these, are found again. -/
theorem map_trim_splitOn_intercalate (hws : ∀ w ∈ ws, IsWord w ∧ '|' ∉ w) (hne : ws ≠ [])
    (hg : gap = [] ∨ gap = [' ']) :
    ((gap ++ [' ', '|', ' '].intercalate ws).splitOn '|').map trim = ws := by
  induction ws generalizing gap with
  | nil => exact absurd rfl hne
  | cons w ws ih =>
    obtain ⟨hw, hbar⟩ := hws w List.mem_cons_self
    have hblank : AllBlank gap := by obtain rfl | rfl := hg <;> decide
    have hfree : '|' ∉ gap := by obtain rfl | rfl := hg <;> decide
    cases ws with
    | nil =>
      rw [List.intercalate_singleton, List.splitOn_eq_singleton (by simp [hfree, hbar])]
      have htrim : trim (gap ++ w ++ []) = w := trim_of_isWord hw hblank (by decide)
      rw [List.append_nil] at htrim
      rw [List.map_singleton, htrim]
    | cons u ws =>
      have hrest : (([' '] ++ [' ', '|', ' '].intercalate (u :: ws)).splitOn '|').map trim =
          u :: ws :=
        ih (fun x hx => hws x (List.mem_cons_of_mem w hx)) (List.cons_ne_nil u ws) (Or.inr rfl)
      have hsplit : gap ++ [' ', '|', ' '].intercalate (w :: u :: ws) =
          (gap ++ w ++ [' ']) ++ '|' :: ([' '] ++ [' ', '|', ' '].intercalate (u :: ws)) := by
        simp [List.intercalate_cons_cons]
      have hparts : ∀ a b : Text, (a ++ '|' :: b).splitOn '|' = a.splitOn '|' ++ b.splitOn '|' :=
        fun a b => List.splitOnP_append_cons a b (beq_self_eq_true '|')
      have hfirst : (gap ++ w ++ [' ']).splitOn '|' = [gap ++ w ++ [' ']] :=
        List.splitOn_eq_singleton (by simp [hfree, hbar])
      rw [hsplit, hparts, hfirst, List.map_append, hrest, List.map_singleton,
        trim_of_isWord hw hblank (by decide), List.singleton_append]

end Text

namespace BitNames

open Text (IsWord)

variable {table : BitNames} {row : Text × UInt8} {bits : UInt8}

/-- The names of a table are words without bars that do not look like numbers, no two of
them are the same, and each stands for a single bit. -/
structure Proper (table : BitNames) : Prop where
  isWord : ∀ row ∈ table, IsWord row.1
  barless : ∀ row ∈ table, '|' ∉ row.1
  wordy : ∀ row ∈ table, ¬ hexMark <+: row.1
  apart : (table.map Prod.fst).Nodup
  single : ∀ row ∈ table, ∀ bits : UInt8, bits &&& row.2 = row.2 ∨ bits &&& row.2 = 0

/-! ## The bits of the words -/

theorem and_or (a b c : UInt8) : a &&& (b ||| c) = a &&& b ||| a &&& c := by
  apply UInt8.eq_of_toBitVec_eq
  simp [BitVec.and_or_distrib_left]

/-- A set is its part inside a mask and its part outside. -/
theorem and_or_and_not (a b : UInt8) : a &&& b ||| a &&& ~~~b = a := by
  rw [← and_or]
  apply UInt8.eq_of_toBitVec_eq
  simp

/-- Bits that are gathered row by row, with some at the start. -/
theorem foldl_or (table : BitNames) (acc : UInt8) :
    table.foldl (fun acc row => acc ||| row.2) acc = acc ||| known table := by
  induction table generalizing acc with
  | nil => simp [known]
  | cons row table ih =>
    rw [known, List.foldl_cons, List.foldl_cons, ih, ih (0 ||| row.2), UInt8.or_assoc]
    simp

theorem known_cons (row : Text × UInt8) (table : BitNames) :
    known (row :: table) = row.2 ||| known table := by
  rw [known, List.foldl_cons, foldl_or]
  simp

/-- The rows whose bits are set. -/
def held (table : BitNames) (bits : UInt8) : BitNames := table.filter fun row => holds bits row.2

theorem held_cons (row : Text × UInt8) (table : BitNames) (bits : UInt8) :
    held (row :: table) bits =
      if holds bits row.2 then row :: held table bits else held table bits :=
  List.filter_cons

/-- The rows whose bits are set have the named bits of a set between them. -/
theorem foldl_or_held
    (single : ∀ row ∈ table, ∀ bits : UInt8, bits &&& row.2 = row.2 ∨ bits &&& row.2 = 0)
    (bits acc : UInt8) :
    ((held table bits).map Prod.snd).foldl (· ||| ·) acc = acc ||| bits &&& known table := by
  induction table generalizing acc with
  | nil => simp [held, known]
  | cons row table ih =>
    have ih := ih fun r hr => single r (List.mem_cons_of_mem row hr)
    rw [held_cons, known_cons, and_or]
    split
    case isTrue hrow =>
      have hset : bits &&& row.2 = row.2 := by simpa [holds] using hrow
      rw [List.map_cons, List.foldl_cons, ih, hset, UInt8.or_assoc]
    case isFalse hrow =>
      have hset : bits &&& row.2 ≠ row.2 := by simpa [holds] using hrow
      have hclear := (single row List.mem_cons_self bits).resolve_left hset
      rw [ih, hclear]
      simp

/-! ## The words of a set -/

/-- The bits of a set that have no name. -/
def unnamed (table : BitNames) (bits : UInt8) : UInt8 := bits &&& ~~~ known table

/-- The words of a set: its names, and a number for what has none. -/
theorem words_eq (table : BitNames) (bits : UInt8) :
    words table bits = (held table bits).map Prod.fst ++
      if unnamed table bits = 0 then []
      else [hexMark ++ Text.ofNatHex (unnamed table bits).toNat] := by
  simp [words, held, unnamed]

/-- A number in hexadecimal digits is a word, and none that the separator is in. -/
theorem isWord_hex (n : Nat) :
    IsWord (hexMark ++ Text.ofNatHex n) ∧ '|' ∉ hexMark ++ Text.ofNatHex n := by
  have hdigit : ∀ d < 16,
      Text.isBlank (Nat.digitChar d) = false ∧ Nat.digitChar d ≠ '|' := by decide
  have hchar : ∀ c ∈ hexMark ++ Text.ofNatHex n, Text.isBlank c = false ∧ c ≠ '|' := by
    intro c hc
    obtain hmark | hc := List.mem_append.mp hc
    · have hfree : hexMark.all (fun c => !Text.isBlank c && c != '|') = true := by decide
      simpa using List.all_eq_true.mp hfree c hmark
    · obtain ⟨d, hd, rfl⟩ := Text.exists_of_mem_ofNatHex hc
      exact hdigit d hd
  exact ⟨⟨List.cons_ne_nil _ _, fun c hc => (hchar c hc).1⟩, fun h => (hchar '|' h).2 rfl⟩

/-- All words of a set are words, and none of them has the separator. -/
theorem Proper.isWord_of_mem_words (hp : Proper table) {w : Text} (hw : w ∈ words table bits) :
    IsWord w ∧ '|' ∉ w := by
  rw [words_eq, List.mem_append] at hw
  obtain hw | hw := hw
  · obtain ⟨row, hrow, rfl⟩ := List.mem_map.mp hw
    have hmem : row ∈ table := (List.mem_filter.mp hrow).1
    exact ⟨hp.isWord row hmem, hp.barless row hmem⟩
  · split at hw
    case isTrue => cases hw
    case isFalse =>
      rw [List.mem_singleton.mp hw]
      exact isWord_hex _

/-- A row is found by its name, as no two have the same. -/
theorem find?_name (apart : (table.map Prod.fst).Nodup) (h : row ∈ table) :
    table.find? (fun r => r.1 == row.1) = some row := by
  induction table with
  | nil => cases h
  | cons r table ih =>
    obtain ⟨hr, apart⟩ := List.nodup_cons.mp apart
    obtain rfl | h := List.mem_cons.mp h
    · exact List.find?_cons_of_pos (beq_self_eq_true _)
    · have hne : (r.1 == row.1) = false := by
        rw [beq_eq_false_iff_ne]
        intro e
        exact hr (e ▸ List.mem_map_of_mem h)
      rw [List.find?_cons_of_neg (by simp [hne]), ih apart h]

/-- A name gives its bit. -/
theorem Proper.ofWord?_name (hp : Proper table) (h : row ∈ table) :
    ofWord? table row.1 = some row.2 := by
  unfold ofWord?
  split
  case h_1 digits hd => exact absurd ⟨digits, hd.symm⟩ (hp.wordy row h)
  case h_2 => rw [find?_name hp.apart h, Option.map_some]

/-- A number gives its bits. -/
theorem ofWord?_hex (table : BitNames) (bits : UInt8) :
    ofWord? table (hexMark ++ Text.ofNatHex bits.toNat) = some bits := by
  have hlt := bits.toNat_lt
  simp only [hexMark, List.cons_append, List.nil_append, ofWord?, Text.dropPlus_ofNatHex,
    Text.hexDigits?_ofNatHex]
  simp [Option.filter, hlt]

/-- The words of a set are read back, each as the bits it stands for. -/
theorem Proper.mapM_ofWord? (hp : Proper table) (bits : UInt8) :
    (words table bits).mapM (ofWord? table) = some ((held table bits).map Prod.snd ++
      if unnamed table bits = 0 then [] else [unnamed table bits]) := by
  have hnames : ∀ rows : BitNames, (∀ row ∈ rows, row ∈ table) →
      (rows.map Prod.fst).mapM (ofWord? table) = some (rows.map Prod.snd) := by
    intro rows hrows
    induction rows with
    | nil => rfl
    | cons row rows ih =>
      have ih := ih fun r hr => hrows r (List.mem_cons_of_mem row hr)
      simp [hp.ofWord?_name (hrows row List.mem_cons_self), ih]
  have hheld := hnames (held table bits) fun row hrow => (List.mem_filter.mp hrow).1
  rw [words_eq, List.mapM_append, hheld]
  split
  · rfl
  · simp [ofWord?_hex]

/-- **Sets of bits**: a set is read back from its text, unnamed bits included. -/
theorem Proper.parse?_render (hp : Proper table) (bits : UInt8) :
    parse? table (render table bits) = some bits := by
  have hbits : ((held table bits).map Prod.snd ++
      if unnamed table bits = 0 then [] else [unnamed table bits]).foldl (· ||| ·) 0 = bits := by
    have hwhole := and_or_and_not bits (known table)
    rw [List.foldl_append, foldl_or_held hp.single, UInt8.zero_or]
    split
    case isTrue hnone =>
      rw [unnamed] at hnone
      simpa [hnone] using hwhole
    case isFalse => exact hwhole
  have hparts := hp.mapM_ofWord? bits
  have hwords := fun w => @hp.isWord_of_mem_words _ bits w
  rw [parse?, render]
  cases hw : words table bits with
  | nil =>
    rw [hw] at hparts
    rw [← Option.some.inj hparts] at hbits
    exact congrArg some hbits
  | cons w ws =>
    have hword := hwords w (hw ▸ List.mem_cons_self)
    rw [hw] at hparts hwords
    -- a blank text would be read as the empty set
    have hshown : Text.trim ([' ', '|', ' '].intercalate (w :: ws)) ≠ [] := by
      intro h
      obtain ⟨c, r, rfl⟩ := List.exists_cons_of_ne_nil hword.1.1
      have hmem : c ∈ [' ', '|', ' '].intercalate ((c :: r) :: ws) := by
        cases ws <;> simp [List.intercalate_cons_cons]
      have hblank := Text.allBlank_of_trim h c hmem
      rw [hword.1.2 c List.mem_cons_self] at hblank
      contradiction
    have hsplit := Text.map_trim_splitOn_intercalate hwords (List.cons_ne_nil w ws) (Or.inl rfl)
    rw [List.nil_append] at hsplit
    have hread : (([' ', '|', ' '].intercalate (w :: ws)).splitOn '|').mapM
        (fun part => ofWord? table (Text.trim part)) = (w :: ws).mapM (ofWord? table) := by
      conv => rhs; rw [← hsplit, List.mapM_map]
      rfl
    rw [if_neg hshown, hread, hparts, Option.map_some, hbits]

end BitNames

end RamFs
