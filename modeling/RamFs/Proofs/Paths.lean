import RamFs.Path
import RamFs.Text.Blank

/-!
# RamFs.Proofs.Paths

Components of a path and back.  `spell` writes a list of components as a path,
absolute or not, and `components_spell` and `isAbsolute_spell` read it back:
every list of non-empty names without slashes is the components of some path.

Two paths with a slash between them have the components of both
(`components_append`), and taking a path apart splits its last component off
(`components_parent`, `leaf_eq_getLastD`) without changing where it starts
(`isAbsolute_parent`).  So a walk never needs more of a path than its components
and its start.
-/

namespace RamFs

namespace Path

/-- No piece of a split holds what was split at. -/
theorem not_mem_of_mem_splitOn {p c : Text} (hc : c ∈ p.splitOn separator) : separator ∉ c :=
  fun hm => absurd (Text.not_of_mem_splitOnP hc hm) (by decide)

/-- Components are not empty and hold no slash. -/
theorem of_mem_components {p c : Text} (hc : c ∈ components p) : c ≠ [] ∧ separator ∉ c := by
  rw [components, List.mem_filter] at hc
  exact ⟨by simpa using hc.2, not_mem_of_mem_splitOn hc.1⟩

/-- A leading slash adds no component. -/
theorem components_cons_separator (p : Text) : components (separator :: p) = components p := by
  rw [components, List.splitOn_cons_eq_if_modifyHead, if_pos (beq_self_eq_true separator)]
  rfl

theorem isSpecial_eq_false {name : Text} : isSpecial name = false ↔ name ≠ here ∧ name ≠ up := by
  simp [isSpecial]

/-! ## Paths in sequence -/

/-- A slash between two paths puts their components in sequence. -/
theorem components_append (p q : Text) :
    components (p ++ separator :: q) = components p ++ components q := by
  have hsplit : (p ++ separator :: q).splitOn separator =
      p.splitOn separator ++ q.splitOn separator :=
    List.splitOnP_append_cons p q (beq_self_eq_true separator)
  rw [components, hsplit, List.filter_append, components, components]

theorem components_of_slashes {t : Text} (ht : ∀ c ∈ t, c = separator) : components t = [] := by
  induction t with
  | nil => rfl
  | cons c t ih =>
      rw [ht c List.mem_cons_self, components_cons_separator]
      exact ih fun x hx => ht x (List.mem_cons_of_mem c hx)

/-- Trailing slashes add no component. -/
theorem components_append_slashes (p : Text) {t : Text} (ht : ∀ c ∈ t, c = separator) :
    components (p ++ t) = components p := by
  cases t with
  | nil => rw [List.append_nil]
  | cons c t =>
      rw [ht c List.mem_cons_self, components_append,
        components_of_slashes fun x hx => ht x (List.mem_cons_of_mem c hx), List.append_nil]

/-- A name without slashes is its only component. -/
theorem components_of_not_mem {n : Text} (hne : n ≠ []) (hn : separator ∉ n) :
    components n = [n] := by
  rw [components, List.splitOn_eq_singleton hn]
  exact List.filter_eq_self.mpr fun x hx => by simpa [List.mem_singleton.mp hx] using hne

/-- A relative path that is not empty has a component. -/
theorem components_ne_nil {p : Text} (hne : p ≠ []) (hrel : isAbsolute p = false) :
    components p ≠ [] := by
  obtain ⟨c, p, rfl⟩ := List.exists_cons_of_ne_nil hne
  have hc : c ≠ separator := by simpa [isAbsolute] using hrel
  obtain ⟨r, rs, hr⟩ := List.exists_cons_of_ne_nil (List.splitOn_ne_nil separator p)
  rw [components, List.splitOn_cons_eq_if_modifyHead, if_neg (by simpa using hc), hr,
    List.modifyHead_cons, List.filter_cons_of_pos (by simp)]
  exact List.cons_ne_nil _ _

/-- What starts a path decides where it starts. -/
theorem isAbsolute_append {p : Text} (hp : isAbsolute p = true) (q : Text) :
    isAbsolute (p ++ q) = true := by
  cases p with
  | nil => contradiction
  | cons c p => exact hp

/-! ## Spelling a path -/

/-- The path of some components, from the root or from the current directory. -/
def spell (absolute : Bool) (cs : List Text) : Text :=
  (if absolute then [separator] else []) ++ [separator].intercalate cs

theorem components_intercalate {cs : List Text} (hcs : ∀ c ∈ cs, c ≠ [] ∧ separator ∉ c) :
    components ([separator].intercalate cs) = cs := by
  cases cs with
  | nil => rfl
  | cons c cs =>
      rw [components, List.splitOn_intercalate separator (fun x hx => (hcs x hx).2)
        (List.cons_ne_nil c cs)]
      exact List.filter_eq_self.mpr fun x hx => by simpa using (hcs x hx).1

theorem components_spell (absolute : Bool) {cs : List Text}
    (hcs : ∀ c ∈ cs, c ≠ [] ∧ separator ∉ c) : components (spell absolute cs) = cs := by
  cases absolute with
  | true =>
      rw [spell, if_pos rfl, List.singleton_append, components_cons_separator,
        components_intercalate hcs]
  | false =>
      rw [spell, if_neg Bool.false_ne_true, List.nil_append, components_intercalate hcs]

theorem isAbsolute_spell (absolute : Bool) {cs : List Text}
    (hcs : ∀ c ∈ cs, c ≠ [] ∧ separator ∉ c) : isAbsolute (spell absolute cs) = absolute := by
  cases absolute with
  | true => simp [spell, isAbsolute]
  | false =>
      cases cs with
      | nil => rfl
      | cons c cs =>
          obtain ⟨hne, hs⟩ := hcs c List.mem_cons_self
          obtain ⟨x, t, rfl⟩ := List.exists_cons_of_ne_nil hne
          have hx : x ≠ separator := fun e => hs (by rw [e]; exact List.mem_cons_self)
          cases cs with
          | nil => simpa [spell, isAbsolute] using hx
          | cons d cs => simpa [spell, isAbsolute] using hx

/-! ## Rendering -/

/-- Rendering spells names as an absolute path. -/
theorem render_eq_spell (names : List Text) : render names = spell true names := by
  cases names with
  | nil => rfl
  | cons n names =>
      induction names generalizing n with
      | nil => simp [render, spell]
      | cons m names ih =>
          have hr : render (n :: m :: names) = separator :: n ++ render (m :: names) := by
            rw [render, render, List.flatMap_cons]
            · exact List.cons_ne_nil _ _
            · exact List.cons_ne_nil _ _
          rw [hr, ih]
          simp [spell]

/-- A rendered path has the names it was made of for its components. -/
theorem components_render {names : List Text} (hns : ∀ n ∈ names, n ≠ [] ∧ separator ∉ n) :
    components (render names) = names := by
  rw [render_eq_spell, components_spell true hns]

/-! ## Parent and leaf -/

/-- What is left after a run of characters is nothing or begins with another one. -/
theorem dropWhile_cases (f : Char → Bool) (p : Text) :
    p.dropWhile f = [] ∨ ∃ c r, f c = false ∧ p.dropWhile f = c :: r := by
  cases h : p.dropWhile f with
  | nil => exact Or.inl rfl
  | cons c r =>
      have hc := List.head?_dropWhile_not f p
      rw [h] at hc
      exact Or.inr ⟨c, r, hc, rfl⟩

/-- A path is its parent, a slash, its leaf and slashes that mean nothing; the
first slash is missing if the parent is, and without a leaf only the others are
left. -/
theorem splitParent_spec (p : Text) : ∃ q t : Text, (∀ c ∈ t, c = separator) ∧
    (splitParent p).1 = (if q = [] ∧ isAbsolute p then [separator] else q) ∧
    ((splitParent p).2 = [] → p = t) ∧
    (q = [] ∧ p = (splitParent p).2 ++ t ∨ p = q ++ separator :: (splitParent p).2 ++ t) := by
  -- backwards the path is its trailing slashes, its leaf and the rest
  obtain ⟨slashes, hslashes⟩ : ∃ l, l = p.reverse.takeWhile (· == separator) := ⟨_, rfl⟩
  obtain ⟨named, hnamed⟩ : ∃ l, l = p.reverse.dropWhile (· == separator) := ⟨_, rfl⟩
  obtain ⟨rest, hrest⟩ : ∃ l, l = named.dropWhile (· != separator) := ⟨_, rfl⟩
  have hleaf : (splitParent p).2 = (named.takeWhile (· != separator)).reverse := by
    rw [hnamed]; rfl
  have hp : p = rest.reverse ++ (splitParent p).2 ++ slashes.reverse := by
    rw [hleaf, hrest, ← List.reverse_append, List.takeWhile_append_dropWhile, hnamed, hslashes,
      ← List.reverse_append, List.takeWhile_append_dropWhile, List.reverse_reverse]
  refine ⟨rest.tail.reverse, slashes.reverse, ?_, by rw [hrest, hnamed]; rfl, ?_, ?_⟩
  · intro c hc
    have hall := List.all_takeWhile (p := (· == separator)) (l := p.reverse)
    rw [← hslashes] at hall
    simpa using List.all_eq_true.mp hall c (List.mem_reverse.mp hc)
  · intro hnil
    have hempty : named = [] := by
      obtain h | ⟨c, b, hc, h⟩ := dropWhile_cases (· == separator) p.reverse
      · rw [hnamed, h]
      · rw [hleaf, hnamed, h, List.takeWhile_cons_of_pos (by simpa using hc)] at hnil
        simp at hnil
    rw [hnil, hrest, hempty] at hp
    exact hp
  · obtain h | ⟨c, r, hc, h⟩ := dropWhile_cases (· != separator) named
    · rw [hrest, h] at hp ⊢
      exact Or.inl ⟨rfl, hp⟩
    · have hc' : c = separator := by simpa using hc
      rw [hrest, h, hc'] at hp
      rw [hrest, h, List.tail_cons]
      exact Or.inr (by simpa using hp)

/-- A path has the components of its parent, and its leaf for the last one. -/
theorem components_splitParent (p : Text) :
    components p = components (splitParent p).1 ++ components (splitParent p).2 := by
  obtain ⟨q, t, ht, hparent, -, hp⟩ := splitParent_spec p
  have hq : components (splitParent p).1 = components q := by
    rw [hparent]
    split
    case isTrue h => rw [h.1]; rfl
    case isFalse => rfl
  rw [hq]
  obtain ⟨rfl, hp⟩ | hp := hp
  · conv => lhs; rw [hp, components_append_slashes _ ht]
    rfl
  · conv => lhs; rw [hp, components_append_slashes _ ht, components_append]

/-- A path without a leaf has no components. -/
theorem components_of_leaf_eq_nil {p : Text} (h : (splitParent p).2 = []) : components p = [] := by
  obtain ⟨q, t, ht, -, hnil, -⟩ := splitParent_spec p
  rw [hnil h, components_of_slashes ht]

/-- The parent of a path has all its components but the last. -/
theorem components_parent (p : Text) :
    components (splitParent p).1 = (components p).dropLast := by
  have hp := components_splitParent p
  by_cases h : (splitParent p).2 = []
  · rw [components_of_leaf_eq_nil h] at hp ⊢
    exact (List.append_eq_nil_iff.mp hp.symm).1
  · rw [hp, components_of_not_mem h (separator_not_mem_leaf p), List.dropLast_concat]

/-- The leaf of a path is its last component, or empty if there is none. -/
theorem leaf_eq_getLastD (p : Text) : (splitParent p).2 = (components p).getLastD [] := by
  by_cases h : (splitParent p).2 = []
  · rw [components_of_leaf_eq_nil h, h]
    rfl
  · rw [components_splitParent, components_of_not_mem h (separator_not_mem_leaf p),
      List.getLastD_concat]

/-- A parent starts where its path does. -/
theorem isAbsolute_parent (p : Text) : isAbsolute (splitParent p).1 = isAbsolute p := by
  obtain ⟨q, t, -, hparent, -, hp⟩ := splitParent_spec p
  rw [hparent]
  cases q with
  | nil => cases ha : isAbsolute p <;> simp [isAbsolute]
  | cons c q =>
      obtain ⟨hq, -⟩ | hp := hp
      · contradiction
      · rw [if_neg (fun h => List.cons_ne_nil c q h.1), hp]
        rfl

end Path

end RamFs
