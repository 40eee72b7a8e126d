import RamFs.Proofs.Names

/-!
# RamFs.Proofs.Navigable

Names lead to what they name.  In a `Navigable` volume the links fit together,
no directory lists a name twice, and every entry has an ordinary name that is
kept as it is; so a walk by the names of a node ends at that node
(`Navigable.descend_namesOf`), and the path of a node is an address of it
(`Navigable.locate_pathOf`, `Navigable.lookup_pathOf`).

A reachable volume is navigable as soon as the limit leaves six octets of a name
(`Reachable.navigable`).
-/

namespace RamFs

namespace Volume

variable {limits : Limits} {v : Volume} {h k d dir : Handle}

/-! ## Walks by components -/

/-- A walk may be broken off anywhere and gone on with from there. -/
theorem descend_append (v : Volume) (dir : Handle) (cs cs' : List Text) :
    v.descend dir (cs ++ cs') = v.descend dir cs >>= (v.descend · cs') := by
  induction cs generalizing dir with
  | nil => rfl
  | cons c cs ih =>
      rw [List.cons_append, descend, descend]
      cases v.step dir c with
      | error x => rfl
      | ok r => cases r with
        | none => rfl
        | some next => exact ih next

/-- The parent of a path is where all its components but the last lead to. -/
theorem lookup_parent (v : Volume) (path : Text) :
    v.lookup (Path.splitParent path).1 =
      v.descend (v.startOf path) (Path.components path).dropLast := by
  rw [lookup, startOf, Path.isAbsolute_parent, Path.components_parent]
  rfl

/-- Finding a node: a walk over all components but the last, and the last step. -/
theorem locate_eq (v : Volume) (path : Text) :
    v.locate path = v.descend (v.startOf path) (Path.components path).dropLast >>=
      (v.leaf · ((Path.components path).getLastD [])) := by
  rw [locate, lookup_parent, Path.leaf_eq_getLastD]
  cases v.descend (v.startOf path) (Path.components path).dropLast <;> rfl

/-- Where components lead does not depend on the cursor. -/
theorem descend_enter (v : Volume) (c dir : Handle) (cs : List Text) :
    ({ v with cwd := c } : Volume).descend dir cs = v.descend dir cs := by
  induction cs generalizing dir with
  | nil => rfl
  | cons x cs ih =>
      have hstep : ({ v with cwd := c } : Volume).step dir x = v.step dir x := rfl
      rw [descend, descend, hstep]
      cases v.step dir x with
      | error e => rfl
      | ok r => cases r with
        | none => rfl
        | some next => exact ih next

/-- A component that is an entry's name leads to it if it is a directory. -/
theorem step_of_child? {c : Text} (ho : Path.Ordinary c) (e : v.child? dir (v.cutName c) = some h)
    (hd : (v.node h).isDirectory = true) : v.step dir c = .ok (some h) := by
  have hf : ¬ (v.node h).isFile = true := by
    rw [isDirectory_eq_not_isFile] at hd
    simpa using hd
  rw [step, if_neg ho.ne_here, if_neg ho.ne_up, e]
  exact if_neg hf

/-- The last step finds the entry of an ordinary name. -/
theorem leaf_of_child? {c : Text} (ho : Path.Ordinary c)
    (e : v.child? dir (v.cutName c) = some h) : v.leaf dir c = .ok h := by
  rw [leaf, if_neg (not_or.mpr ⟨ho.1, ho.ne_here⟩), if_neg ho.ne_up, e]

/-! ## Navigable volumes -/

/-- Every node is where its names lead. -/
structure Navigable (v : Volume) : Prop where
  sound : Sound v
  tidy : Tidy v
  named : Named v
  ordinary : ∀ h d, v.parent h = some d → Path.Ordinary (v.node h).name

/-- With room for them, the names of entries are ordinary. -/
theorem Reachable.ordinary (hr : Reachable limits v) (hn : 6 ≤ limits.maxNameLen)
    (hp : v.parent h = some d) : Path.Ordinary (v.node h).name := by
  obtain ⟨c, ho, -, hname⟩ := hr.named h d hp
  rw [hname, cutName, hr.limits_eq]
  exact Path.ordinary_within (UInt64.le_iff_toNat_le.mp hn) ho

/-- With room for their names, entries can be navigated to. -/
theorem Reachable.navigable (hr : Reachable limits v) (hn : 6 ≤ limits.maxNameLen) :
    Navigable v where
  sound := hr.sound
  tidy := hr.tidy (UInt64.le_trans (by decide) hn)
  named := hr.named
  ordinary := fun _ _ => hr.ordinary hn

/-- An entry is found by its name. -/
theorem Navigable.child?_name (hv : Navigable v) (hp : v.parent h = some d) :
    v.child? d (v.cutName (v.node h).name) = some h := by
  rw [hv.named.cutName_name hp, hv.tidy.child?_eq hv.sound hp]

/-- The name of an entry leads to it from its directory. -/
theorem Navigable.leaf_name (hv : Navigable v) (hp : v.parent h = some d) :
    v.leaf d (v.node h).name = .ok h :=
  leaf_of_child? (hv.ordinary h d hp) (hv.child?_name hp)

/-- The names of a directory lead to it from the root. -/
theorem Navigable.descend_namesOf (hv : Navigable v) (hd : v.Place d) :
    v.descend root (v.namesOf d) = .ok d := by
  refine hv.sound.linked_induction
    (P := fun d => (v.node d).isDirectory = true → v.descend root (v.namesOf d) = .ok d)
    ?_ ?_ hd.linked hd.isDirectory
  · intro _
    rw [hv.sound.namesOf_root]
    rfl
  · intro h d hp hd ih hdir
    rw [hv.sound.namesOf_of_parent hp, descend_append, ih hd.isDirectory]
    change v.descend d [(v.node h).name] = .ok h
    rw [descend, step_of_child? (hv.ordinary h d hp) (hv.child?_name hp) hdir]
    rfl

/-! ## Paths of nodes -/

/-- The names of a node are not empty and have no separator. -/
theorem Navigable.of_mem_namesOf (hv : Navigable v) (hl : v.Linked h) :
    ∀ n ∈ v.namesOf h, n ≠ [] ∧ Path.separator ∉ n := by
  refine hv.sound.linked_induction
    (P := fun h => ∀ n ∈ v.namesOf h, n ≠ [] ∧ Path.separator ∉ n) ?_ ?_ hl
  · rw [hv.sound.namesOf_root]
    exact fun n hn => absurd hn List.not_mem_nil
  · intro h d hp _ ih n hn
    rw [hv.sound.namesOf_of_parent hp, List.mem_append, List.mem_singleton] at hn
    obtain hn | rfl := hn
    · exact ih n hn
    · exact ⟨(hv.ordinary h d hp).1, hv.named.separator_not_mem hp⟩

/-- The components of the path of a node are its names. -/
theorem Navigable.components_pathOf (hv : Navigable v) (hl : v.Linked h) :
    Path.components (v.pathOf h) = v.namesOf h :=
  Path.components_render (hv.of_mem_namesOf hl)

/-- The path of a node starts at the root. -/
theorem startOf_pathOf (v w : Volume) (h : Handle) : w.startOf (v.pathOf h) = root := by
  rw [startOf, pathOf, if_pos (Path.isAbsolute_render _)]

/-- The path of a directory leads to it, wherever the cursor is. -/
theorem Navigable.lookup_pathOf (hv : Navigable v) (hd : v.Place d) (c : Handle) :
    ({ v with cwd := c } : Volume).lookup (v.pathOf d) = .ok d := by
  rw [lookup, startOf_pathOf, descend_enter, hv.components_pathOf hd.linked, hv.descend_namesOf hd]

/-- The path of a node leads to it, wherever the cursor is. -/
theorem Navigable.locate_pathOf (hv : Navigable v) (hl : v.Linked h) (c : Handle) :
    ({ v with cwd := c } : Volume).locate (v.pathOf h) = .ok h := by
  rw [locate_eq, startOf_pathOf, descend_enter, hv.components_pathOf hl]
  obtain rfl | ⟨d, hp⟩ := hl
  · rw [hv.sound.namesOf_root]
    rfl
  · rw [hv.sound.namesOf_of_parent hp, List.dropLast_concat, List.getLastD_concat,
      hv.descend_namesOf (hv.sound.parent_place hp)]
    exact hv.leaf_name hp

/-- Different nodes of the tree have different paths. -/
theorem Navigable.pathOf_inj (hv : Navigable v) (hh : v.Linked h) (hk : v.Linked k)
    (e : v.pathOf h = v.pathOf k) : h = k := by
  have hlocate := hv.locate_pathOf hh v.cwd
  rw [e, hv.locate_pathOf hk v.cwd] at hlocate
  exact (Except.ok.inj hlocate).symm

/-- **Paths and nodes**: in a volume that any run of operations has led to, the
path of an attached node is an address of it wherever the cursor is, for walks
to directories too if it is one, and of no other attached node. -/
theorem pathOf_leads_back (hr : Reachable limits v) (hn : 6 ≤ limits.maxNameLen)
    (ha : v.isAttached h = true) :
    (∀ c, ({ v with cwd := c } : Volume).locate (v.pathOf h) = .ok h) ∧
      ((v.node h).isDirectory = true →
        ∀ c, ({ v with cwd := c } : Volume).lookup (v.pathOf h) = .ok h) ∧
      ∀ k, v.isAttached k = true → v.pathOf k = v.pathOf h → k = h := by
  have hv := hr.navigable hn
  have hl := (hv.sound.isAttached_iff h).mp ha
  refine ⟨hv.locate_pathOf hl, fun hd => hv.lookup_pathOf ⟨hd, hl⟩, fun k hk e => ?_⟩
  exact hv.pathOf_inj ((hv.sound.isAttached_iff k).mp hk) hl e

/-- A directory and a file in it whose names had to be cut, one of them to three
dots: their paths lead back to them from inside the directory. -/
theorem pathOf_leads_back_through_dots :
    ∃ fresh, format { maxNameLen := 6 } = .ok fresh ∧ ∃ v,
      v = fresh.runAll [.mkdir "...😀".toList, .cd "...".toList, .touch "..😀x".toList] ∧
      v.cwd = 6 ∧ v.locate "/.../..😀".toList = .ok 7 ∧ v.lookup "/...".toList = .ok 6 ∧
      ∀ k, v.isAttached k = true → v.pathOf k = "/...".toList → k = 6 := by
  have hr := fun fresh hf => (⟨fresh, hf, [.mkdir "...😀".toList, .cd "...".toList,
    .touch "..😀x".toList], rfl⟩ : Reachable { maxNameLen := 6 } _)
  obtain ⟨hfile, -, -⟩ := @pathOf_leads_back _ _ 7 (hr _ rfl) (by decide) rfl
  obtain ⟨-, hdir, honly⟩ := @pathOf_leads_back _ _ 6 (hr _ rfl) (by decide) rfl
  exact ⟨_, rfl, _, rfl, rfl, hfile 6, hdir rfl 6, honly⟩

end Volume

end RamFs
