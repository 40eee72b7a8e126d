import RamFs.Proofs.Names

/-!
# RamFs.Proofs.Normal

Walking a volume agrees with reading the path.  `Path.normalize` takes the
components of a path by their text alone: a dot does nothing, two dots drop the
last name, any other component puts its cut name at the end.  Where a walk
succeeds it ends at a node with exactly these names, also if it creates
directories on the way; a parent link undoes the step to a child, whatever the
child is called, so this needs no limit on names.
-/

namespace RamFs

namespace Path

/-- The names of a place after one more component. -/
def follow (cut : Text → Text) (names : List Text) (component : Text) : List Text :=
  if component = here then names
  else if component = up then names.dropLast
  else names ++ [cut component]

/-- The names of a place after some more components. -/
def normalize (cut : Text → Text) (names cs : List Text) : List Text := cs.foldl (follow cut) names

/-- A component that is not special puts its name at the end. -/
theorem follow_of_not_isSpecial (cut : Text → Text) (names : List Text) {c : Text}
    (hc : isSpecial c = false) : follow cut names c = names ++ [cut c] := by
  obtain ⟨hhere, hup⟩ := isSpecial_eq_false.mp hc
  rw [follow, if_neg hhere, if_neg hup]

end Path

namespace Volume

variable {limits : Limits} {v w : Volume} {h d dir : Handle}

/-- The names that a path comes to by its text alone, from the root or from the
current directory. -/
def normalNames (v : Volume) (path : Text) : List Text :=
  Path.normalize v.cutName (if Path.isAbsolute path then [] else v.namesOf v.cwd)
    (Path.components path)

theorem Sound.normalNames_eq (hs : Sound v) (path : Text) :
    v.normalNames path =
      Path.normalize v.cutName (v.namesOf (v.startOf path)) (Path.components path) := by
  rw [normalNames, startOf]
  split
  · rw [hs.namesOf_root]
  · rfl

/-! ## Walks -/

/-- One component leads to the names that follow. -/
theorem Sound.namesOf_step (hs : Sound v) (hl : v.Linked dir) {c : Text}
    (e : v.step dir c = .ok (some h)) :
    v.namesOf h = Path.follow v.cutName (v.namesOf dir) c := by
  obtain ⟨rfl, rfl⟩ | ⟨rfl, rfl⟩ | ⟨hc, hchild, -⟩ := step_eq_some e
  · exact (if_pos rfl).symm
  · rw [hs.namesOf_above hl]
    rfl
  · rw [hs.namesOf_child hchild, Path.follow_of_not_isSpecial _ _ hc]

/-- A walk ends at the node with the names that its components spell out. -/
theorem Sound.namesOf_descend (hs : Sound v) {cs : List Text} (hd : v.Place dir)
    (e : v.descend dir cs = .ok h) :
    v.namesOf h = Path.normalize v.cutName (v.namesOf dir) cs := by
  induction cs generalizing dir with
  | nil =>
      cases e
      rfl
  | cons c cs ih =>
      rw [descend] at e
      split at e
      case h_1 => contradiction
      case h_2 => contradiction
      case h_3 next hn =>
        rw [ih (hs.step_place hd hn) e, hs.namesOf_step hd.linked hn]
        rfl

/-- A directory created on the way has the names that follow. -/
theorem Sound.namesOf_addOnTheWay (hs : Sound v) (hd : v.Place dir) {c : Text}
    (hn : v.step dir c = .ok none) (e : v.addOnTheWay dir c = .ok (h, w)) (hw : Sound w) :
    w.limits = v.limits ∧ w.namesOf h = Path.follow v.cutName (v.namesOf dir) c := by
  obtain ⟨rfl, a⟩ := createChild_eq_ok (addOnTheWay_eq_ok e).2
  refine ⟨a.limits, ?_⟩
  rw [a.namesOf_new hs hw hd.linked, Path.follow_of_not_isSpecial _ _ (step_eq_none hn).1]

/-- So does a walk that creates what is missing. -/
theorem Sound.namesOf_descendMaking (hs : Sound v) {cs : List Text} (hd : v.Place dir)
    (hcs : ∀ c ∈ cs, c ≠ [] ∧ Path.separator ∉ c) (e : v.descendMaking dir cs = (.ok h, w)) :
    w.namesOf h = Path.normalize v.cutName (v.namesOf dir) cs := by
  induction cs generalizing v dir with
  | nil =>
      cases e
      rfl
  | cons c cs ih =>
      have hc := hcs c List.mem_cons_self
      have hcs' := fun x hx => hcs x (List.mem_cons_of_mem c hx)
      rw [descendMaking] at e
      split at e
      case h_1 => cases e
      case h_2 next hn =>
        rw [ih hs (hs.step_place hd hn) hcs' e, hs.namesOf_step hd.linked hn]
        rfl
      case h_3 hn =>
        split at e
        case h_1 => cases e
        case h_2 next u ha =>
          obtain ⟨edit, hp⟩ := Sound.edit_addOnTheWay hd hc hn ha
          obtain ⟨hlimits, hnames⟩ := hs.namesOf_addOnTheWay hd hn ha (edit.sound hs)
          have hcut : u.cutName = v.cutName := funext (cutName_congr hlimits)
          rw [ih (edit.sound hs) hp hcs' e, hnames, hcut]
          rfl

/-! ## Paths -/

theorem Sound.namesOf_lookup (hs : Sound v) {path : Text} (e : v.lookup path = .ok d) :
    v.namesOf d = v.normalNames path := by
  rw [hs.normalNames_eq]
  exact hs.namesOf_descend (hs.startOf_place path) e

theorem Sound.namesOf_makePath (hs : Sound v) {path : Text} (e : v.makePath path = (.ok d, w)) :
    w.namesOf d = v.normalNames path := by
  rw [hs.normalNames_eq]
  exact hs.namesOf_descendMaking (hs.startOf_place path) (fun _ => Path.of_mem_components) e

/-- The cursor is moved to the node with the names of the path. -/
theorem Sound.namesOf_cd (hs : Sound v) {path : Text} (e : v.cd path = .ok w) :
    w.namesOf w.cwd = v.normalNames path := by
  obtain ⟨dir, hl, -, rfl⟩ := cd_eq_ok e
  rw [hs.namesOf_enter (hs.lookup_place hl) dir, hs.namesOf_lookup hl]

/-- **Normal paths**: in a volume that any run of operations has led to, a path
that can be entered makes the current directory the one with the normal names of
the path, and a directory that a path leads to, created on the way or not, has
the normal path for its own. -/
theorem path_is_normal (hr : Reachable limits v) (path : Text) :
    (∀ w, v.cd path = .ok w →
      w.namesOf w.cwd = v.normalNames path ∧ w.pwd = Path.render (v.normalNames path)) ∧
      (∀ d, v.lookup path = .ok d → v.pathOf d = Path.render (v.normalNames path)) ∧
      ∀ d w, v.makePath path = (.ok d, w) → w.pathOf d = Path.render (v.normalNames path) := by
  have hs := hr.sound
  refine ⟨fun w e => ?_, fun d e => ?_, fun d w e => ?_⟩
  · exact ⟨hs.namesOf_cd e, by rw [pwd, pathOf, hs.namesOf_cd e]⟩
  · rw [pathOf, hs.namesOf_lookup e]
  · rw [pathOf, hs.namesOf_makePath e]

/-- Slashes, dots and a climb above the root, with two octets kept of a name. -/
theorem path_is_normal_of_cut_names :
    ∃ fresh, format { maxNameLen := 2 } = .ok fresh ∧
      (∃ w, fresh.cd "//bin/./../../etcetera/".toList = .ok w ∧ w.pwd = "/et".toList) ∧
      ∃ w, fresh.makePath "//bin/./..//new/.tmp/".toList = (.ok 7, w) ∧
        w.pathOf 7 = "/ne/.t".toList := by
  have hr := fun fresh hf => (⟨fresh, hf, [], rfl⟩ : Reachable { maxNameLen := 2 } fresh)
  refine ⟨_, rfl, ⟨_, rfl, ?_⟩, _, rfl, ?_⟩
  · exact ((path_is_normal (hr _ rfl) "//bin/./../../etcetera/".toList).1 _ rfl).2
  · exact (path_is_normal (hr _ rfl) "//bin/./..//new/.tmp/".toList).2.2 7 _ rfl

end Volume

end RamFs
