import Mathlib.Data.List.Infix
import RamFs.Proofs.Capacity.Missing
import RamFs.Proofs.Failure

/-!
# RamFs.Proofs.LeadingPaths

Making a path is asking for one directory after another.  The *leading paths* of a
path are those of its first component, of its first two, and so on up to all of them,
and `makeEach` goes through them by calls of their own: it looks each of them up from
the start again and creates the directory if it is missing.  `makePath` walks once and
never goes back, and `makePath_is_repeated_mkdir` says that the two can not be told
apart, whatever dots, climbs and cut names are on the way and wherever the walk fails.

What carries the proof is that a walk stays possible while directories are added
(`Extends.descend`), so looking a leading path up again comes to where the one walk
stands.
-/

namespace RamFs

/-- The prefixes of a list that are not empty, the shortest first. -/
theorem inits_tail_cons {α : Type} (a : α) (l : List α) :
    (a :: l).inits.tail = [a] :: l.inits.tail.map (a :: ·) := by
  cases l <;> simp

namespace Path

/-- The paths of the first component, of the first two, and so on, all of them
absolute or relative as the path is. -/
def leadingPaths (path : Text) : List Text :=
  (components path).inits.tail.map (spell (isAbsolute path))

example : leadingPaths "/a//./b/".toList = ["/a".toList, "/a/.".toList, "/a/./b".toList] := by
  decide

end Path

namespace Volume

variable {limits : Limits} {v w : Volume} {h d dir next : Handle} {path c : Text}
  {pre cs : List Text} {x : FsError}

/-! ## One directory after another -/

/-- Asks for a directory: one that is missing is created, and a full directory is then
reported like a full volume. -/
def ensure (v : Volume) (path : Text) : Except FsError Unit × Volume :=
  match v.lookup path with
  | .ok _ => (.ok (), v)
  | .error .notFound =>
    match v.mkdir path with
    | .ok (_, w) => (.ok (), w)
    | .error e => (.error (asExhausted e), v)
  | .error e => (.error e, v)

/-- Asks for directories in order, up to the first one that can not be had. -/
def ensureAll (v : Volume) : List Text → Except FsError Unit × Volume
  | [] => (.ok (), v)
  | path :: paths =>
    match v.ensure path with
    | (.error e, w) => (.error e, w)
    | (.ok (), w) => w.ensureAll paths

/-- The directory that a path names, once there is one at each of its leading paths. -/
def makeEach (v : Volume) (path : Text) : Except FsError Handle × Volume :=
  match v.ensureAll (Path.leadingPaths path) with
  | (.error e, w) => (.error e, w)
  | (.ok (), w) => (w.lookup path, w)

/-! ## Walks that have been made -/

/-- A way that is there needs nothing to be created. -/
theorem descendMaking_of_descend (e : v.descend dir cs = .ok d) :
    v.descendMaking dir cs = (.ok d, v) := by
  have happend := descendMaking_append e []
  rwa [List.append_nil] at happend

/-- A way that has been made can be gone again. -/
theorem Sound.descend_of_descendMaking (hs : Sound v) (hd : v.Place dir)
    (hcs : ∀ c ∈ cs, c ≠ [] ∧ Path.separator ∉ c) (e : v.descendMaking dir cs = (.ok h, w)) :
    w.descend dir cs = .ok h := by
  induction cs generalizing v dir with
  | nil =>
    cases e
    rfl
  | cons c cs ih =>
    have hc := hcs c List.mem_cons_self
    have hcs' := fun x hx => hcs x (List.mem_cons_of_mem c hx)
    -- what the first step comes to is still there after the others
    have hfirst : ∀ {u : Volume} {next : Handle}, Sound u → u.Place dir → u.Place next →
        u.step dir c = .ok (some next) → u.descendMaking next cs = (.ok h, w) →
        w.descend dir (c :: cs) = .ok h := by
      intro u next hu hdir hnext hstep e
      have es := (hu.extends_descendMaking hnext hcs').1
      rw [e] at es
      rw [descend, Extends.step es hu hdir hstep]
      exact ih hu hnext hcs' e
    rw [descendMaking] at e
    split at e
    case h_1 => cases e
    case h_2 next hn => exact hfirst hs hd (hs.step_place hd hn) hn e
    case h_3 hn =>
      split at e
      case h_1 => cases e
      case h_2 next u ha =>
        obtain ⟨ext, hp⟩ := Sound.extend_addOnTheWay hd hc hn ha
        exact hfirst (ext.edit.sound hs) (ext.place hd) hp (hs.step_addOnTheWay hc.1 hn ha) e

/-- The ways in which a directory is not added on the way. -/
theorem addOnTheWay_eq_error (hd : (v.node dir).isDirectory = true)
    (e : v.addOnTheWay dir c = .error x) : x = .permissionDenied .write ∨ x = .exhausted := by
  obtain hw | ⟨u, -, e⟩ := bind_eq_error.mp e
  · exact Or.inl (Node.requireWrite_eq_error hw)
  · cases hcreate : v.createChild dir c .directory .all with
    | ok r => simp [hcreate, Except.mapError] at e
    | error y =>
      rw [hcreate] at e
      cases e
      obtain ⟨-, rfl⟩ | ⟨-, -, rfl⟩ := createChild_eq_error hcreate hd
      · exact Or.inr rfl
      · exact Or.inr rfl

/-- A path can not be made for three reasons only. -/
theorem Sound.descendMaking_error (hs : Sound v) (hd : v.Place dir)
    (hcs : ∀ c ∈ cs, c ≠ [] ∧ Path.separator ∉ c) (e : v.descendMaking dir cs = (.error x, w)) :
    x = .notADirectory ∨ x = .permissionDenied .write ∨ x = .exhausted := by
  induction cs generalizing v dir with
  | nil => cases e
  | cons c cs ih =>
    have hc := hcs c List.mem_cons_self
    have hcs' := fun x hx => hcs x (List.mem_cons_of_mem c hx)
    rw [descendMaking] at e
    split at e
    case h_1 y hy =>
      cases e
      exact Or.inl (step_eq_error hy)
    case h_2 next hn => exact ih hs (hs.step_place hd hn) hcs' e
    case h_3 hn =>
      split at e
      case h_1 y ha =>
        cases e
        exact Or.inr (addOnTheWay_eq_error hd.isDirectory ha)
      case h_2 next u ha =>
        obtain ⟨edit, hp⟩ := Sound.edit_addOnTheWay hd hc hn ha
        exact ih (edit.sound hs) hp hcs' e

/-! ## Looking up from the start again -/

theorem lookup_spell (v : Volume) (path : Text) (hcs : ∀ c ∈ cs, c ≠ [] ∧ Path.separator ∉ c) :
    v.lookup (Path.spell (Path.isAbsolute path) cs) = v.descend (v.startOf path) cs := by
  rw [lookup, startOf, Path.isAbsolute_spell _ hcs, Path.components_spell _ hcs, startOf]

/-- A name is cut once, by whoever is the first to do so. -/
theorem createChild_cutName (v : Volume) (dir : Handle) (name : Text) (kind : Kind)
    (permissions : Permissions) :
    v.createChild dir (v.cutName name) kind permissions =
      v.createChild dir name kind permissions := by
  simp only [createChild, cutName_cutName]

/-- Creating the directory where a walk has come to a name that is missing is adding
it on the way. -/
theorem mkdir_spell (hcs : ∀ t ∈ pre ++ [c], t ≠ [] ∧ Path.separator ∉ t)
    (hpre : v.descend (v.startOf path) pre = .ok d) (hn : v.step d c = .ok none) :
    (v.mkdir (Path.spell (Path.isAbsolute path) (pre ++ [c]))).mapError asExhausted =
      v.addOnTheWay d c := by
  obtain ⟨hsp, hnone⟩ := step_eq_none hn
  have hne : c ≠ [] := (hcs c (by simp)).1
  generalize hq : Path.spell (Path.isAbsolute path) (pre ++ [c]) = q
  have hleaf : (Path.splitParent q).2 = c := by
    rw [Path.leaf_eq_getLastD, ← hq, Path.components_spell _ hcs, List.getLastD_concat]
  have hparent : v.lookup (Path.splitParent q).1 = .ok d := by
    rw [lookup_parent, ← hq, Path.components_spell _ hcs, List.dropLast_concat, startOf,
      Path.isAbsolute_spell _ hcs]
    exact hpre
  have hname : ¬ (c = [] ∨ Path.isSpecial c = true) := by simp [hne, hsp]
  simp only [mkdir, create, hleaf, hparent, if_neg hname, createChild_cutName, hnone,
    addOnTheWay, bind, Except.bind]
  cases hw : (v.node d).requireWrite with
  | error y =>
    cases Node.requireWrite_eq_error hw
    rfl
  | ok u => rfl

/-- One leading path more is one step more of the walk. -/
theorem ensure_spell (hcs : ∀ t ∈ pre ++ [c], t ≠ [] ∧ Path.separator ∉ t)
    (hpre : v.descend (v.startOf path) pre = .ok d) :
    v.ensure (Path.spell (Path.isAbsolute path) (pre ++ [c])) =
      match v.step d c with
      | .error e => (.error e, v)
      | .ok (some _) => (.ok (), v)
      | .ok none =>
        match v.addOnTheWay d c with
        | .error e => (.error e, v)
        | .ok (_, w) => (.ok (), w) := by
  have hlookup : v.lookup (Path.spell (Path.isAbsolute path) (pre ++ [c])) = v.descend d [c] := by
    rw [lookup_spell v path hcs, descend_append, hpre]
    rfl
  rw [ensure, hlookup, descend]
  cases hn : v.step d c with
  | error y =>
    cases step_eq_error hn
    rfl
  | ok r => cases r with
    | some next => rfl
    | none =>
      rw [← mkdir_spell hcs hpre hn]
      cases v.mkdir (Path.spell (Path.isAbsolute path) (pre ++ [c])) with
      | error y => rfl
      | ok r => rfl

/-- **Run lemma**: asking for the leading paths from where the walk stands does what
the rest of the walk does. -/
theorem Sound.ensureAll_eq (hs : Sound v) (hd : v.Place d)
    (hcs : ∀ t ∈ pre ++ cs, t ≠ [] ∧ Path.separator ∉ t)
    (hpre : v.descend (v.startOf path) pre = .ok d) :
    v.ensureAll (cs.inits.tail.map fun t => Path.spell (Path.isAbsolute path) (pre ++ t)) =
      ((v.descendMaking d cs).1.map fun _ => (), (v.descendMaking d cs).2) := by
  induction cs generalizing v d pre with
  | nil => rfl
  | cons c cs ih =>
    have hsplit : pre ++ c :: cs = pre ++ [c] ++ cs := by simp
    rw [hsplit] at hcs
    have hfront : ∀ t ∈ pre ++ [c], t ≠ [] ∧ Path.separator ∉ t := fun t ht =>
      hcs t (List.mem_append_left cs ht)
    have hc := hfront c (by simp)
    -- the walk goes on from where the leading path leads
    have hrest : ∀ {u : Volume} {next : Handle}, Sound u → u.Place next →
        u.startOf path = v.startOf path → u.descend (v.startOf path) pre = .ok d →
        u.step d c = .ok (some next) →
        u.ensureAll (cs.inits.tail.map fun t =>
          Path.spell (Path.isAbsolute path) (pre ++ (c :: t))) =
          ((u.descendMaking next cs).1.map fun _ => (), (u.descendMaking next cs).2) := by
      intro u next hu hnext hstart hpre hstep
      have hgo : u.descend (u.startOf path) (pre ++ [c]) = .ok next := by
        rw [hstart, descend_append, hpre]
        simp [bind, Except.bind, descend, hstep]
      have := ih hu hnext hcs hgo
      simpa using this
    rw [inits_tail_cons, List.map_cons, List.map_map, ensureAll, ensure_spell hfront hpre,
      descendMaking]
    cases hn : v.step d c with
    | error y => rfl
    | ok r => cases r with
      | some next => exact hrest hs (hs.step_place hd hn) rfl hpre hn
      | none =>
        cases ha : v.addOnTheWay d c with
        | error y => rfl
        | ok r =>
          obtain ⟨next, u⟩ := r
          obtain ⟨ext, hp⟩ := Sound.extend_addOnTheWay hd hc hn ha
          have hstart : u.startOf path = v.startOf path := by
            rw [startOf, startOf, (used_createChild (addOnTheWay_eq_ok ha).2).2.2.2]
          have hpre' := Extends.descend (.single ext) hs (hs.startOf_place path) hpre
          exact hrest (ext.edit.sound hs) hp hstart hpre' (hs.step_addOnTheWay hc.1 hn ha)

/-! ## Paths -/

theorem startOf_makePath (v : Volume) (path : Text) :
    (v.makePath path).2.startOf path = v.startOf path := by
  rw [startOf, startOf, makePath, cwd_descendMaking]

/-- The directory of a path that has been made is found at the path. -/
theorem Sound.lookup_of_makePath (hs : Sound v) (e : v.makePath path = (.ok h, w)) :
    w.lookup path = .ok h := by
  have hstart := startOf_makePath v path
  rw [e] at hstart
  rw [lookup, hstart]
  exact hs.descend_of_descendMaking (hs.startOf_place path) (fun _ => Path.of_mem_components) e

/-- A path that leads to a directory is made without a change. -/
theorem makePath_of_lookup (e : v.lookup path = .ok h) : v.makePath path = (.ok h, v) :=
  descendMaking_of_descend e

theorem Sound.makePath_eq_makeEach (hs : Sound v) (path : Text) :
    v.makePath path = v.makeEach path := by
  have hcs : ∀ t ∈ [] ++ Path.components path, t ≠ [] ∧ Path.separator ∉ t :=
    fun _ => Path.of_mem_components
  have hall : v.ensureAll (Path.leadingPaths path) =
      ((v.makePath path).1.map fun _ => (), (v.makePath path).2) :=
    hs.ensureAll_eq (hs.startOf_place path) hcs rfl
  rw [makeEach, hall]
  rcases hm : v.makePath path with ⟨y | h, w⟩
  · rfl
  · simp [Except.map, hs.lookup_of_makePath hm]

/-- **Repeated creation**: on a volume that any run of operations has led to, making a
path has the outcome of asking for each of its leading paths in order, each with a call
of its own, and looking the path up in the end.  So it fails for three reasons only; a
path that has been made leads to the directory it was made for, and making it again
gives the same directory and changes nothing, like making a path that leads somewhere. -/
theorem makePath_is_repeated_mkdir (hr : Reachable limits v) (path : Text) :
    v.makePath path = v.makeEach path ∧
      (∀ x w, v.makePath path = (.error x, w) →
        x = .notADirectory ∨ x = .permissionDenied .write ∨ x = .exhausted) ∧
      (∀ h w, v.makePath path = (.ok h, w) →
        w.lookup path = .ok h ∧ w.makePath path = (.ok h, w)) ∧
      ∀ h, v.lookup path = .ok h → v.makePath path = (.ok h, v) := by
  have hs := hr.sound
  refine ⟨hs.makePath_eq_makeEach path, fun x w e => ?_, fun h w e => ?_, fun h e => ?_⟩
  · exact hs.descendMaking_error (hs.startOf_place path) (fun _ => Path.of_mem_components) e
  · have hl := hs.lookup_of_makePath e
    exact ⟨hl, makePath_of_lookup hl⟩
  · exact makePath_of_lookup e

/-- Dots, a climb out of what has just been created, and a name that is cut to one that
is there: the last name finds no slot.  What is left can be made again, by other names. -/
theorem makePath_is_repeated_mkdir_until_full :
    let path := "new/./.tmp/../../newer/b".toList
    let again := "/../newest/.t".toList
    ∃ fresh, format { maxNodes := 8, maxNameLen := 2 } = .ok fresh ∧
      ∃ w, fresh.makePath path = (.error .exhausted, w) ∧
        fresh.makeEach path = (.error .exhausted, w) ∧ w.used = 8 ∧
        w.makePath again = (.ok 7, w) ∧ w.makeEach again = (.ok 7, w) := by
  intro path again
  have hrun : (format { maxNodes := 8, maxNameLen := 2 }).map (fun fresh =>
      let made := fresh.makePath path
      (made.1, made.2.used, made.2.lookup again)) = .ok (.error .exhausted, 8, .ok 7) := by
    decide +kernel
  obtain ⟨fresh, hf⟩ : ∃ fresh, format { maxNodes := 8, maxNameLen := 2 } = .ok fresh := ⟨_, rfl⟩
  rw [hf] at hrun
  simp only [Except.map, Except.ok.injEq, Prod.mk.injEq] at hrun
  obtain ⟨hfails, hused, hleads⟩ := hrun
  have hr : Reachable { maxNodes := 8, maxNameLen := 2 } fresh := ⟨fresh, hf, [], rfl⟩
  have hmade : fresh.makePath path = (.error .exhausted, (fresh.makePath path).2) :=
    Prod.ext hfails rfl
  obtain ⟨heach, -⟩ := makePath_is_repeated_mkdir hr path
  obtain ⟨heach', -, -, hthere⟩ := makePath_is_repeated_mkdir (hr.run (.makePath path)) again
  exact ⟨fresh, hf, _, hmade, heach.symm.trans hmade, hused, hthere 7 hleads,
    heach'.symm.trans (hthere 7 hleads)⟩

end Volume

end RamFs
