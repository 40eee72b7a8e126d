import RamFs.Proofs.Navigable

/-!
# RamFs.Proofs.Relative

A relative path means the same as the absolute one with the path of the current
directory before it.  An operation reads a path in three ways only: it looks up
the whole path or the parent of it, it takes the leaf, or it makes the path.
Two paths that agree on these (`SameWay`) can not be told apart by any
operation, and a walk from the root by the names of the current directory comes
to where the relative path starts.
-/

namespace RamFs

namespace Op

/-- The path that an operation takes. -/
def path? : Op → Option Text
  | .mkdir path | .makePath path | .touch path | .touchReadOnly path | .touchWith path _
  | .rm path | .rmdir path | .ls path _ | .cd path | .write path _ | .cat path | .chmod path _
  | .stat path | .executable path | .locate path | .resolve path _ => some path
  | .pwd | .usage => none

/-- The operation with another path; one that takes none stays as it is. -/
def withPath (path : Text) : Op → Op
  | .mkdir _ => .mkdir path
  | .makePath _ => .makePath path
  | .touch _ => .touch path
  | .touchReadOnly _ => .touchReadOnly path
  | .touchWith _ permissions => .touchWith path permissions
  | .rm _ => .rm path
  | .rmdir _ => .rmdir path
  | .ls _ all => .ls path all
  | .cd _ => .cd path
  | .pwd => .pwd
  | .write _ text => .write path text
  | .cat _ => .cat path
  | .chmod _ mode => .chmod path mode
  | .stat _ => .stat path
  | .executable _ => .executable path
  | .locate _ => .locate path
  | .resolve _ create => .resolve path create
  | .usage => .usage

theorem withPath_eq_self {op : Op} {p : Text} (hp : op.path? = some p) : op.withPath p = op := by
  cases op <;> first | contradiction | (cases hp; rfl)

end Op

namespace Volume

variable {limits : Limits} {v : Volume} {dir d : Handle} {p q : Text}

/-! ## What operations read of a path -/

/-- Two paths that lead the same way: to the same directory as a whole, to the
same parent with the same leaf, and to the same volume if what is missing is
created. -/
structure SameWay (v : Volume) (p q : Text) : Prop where
  leaf : (Path.splitParent p).2 = (Path.splitParent q).2
  parent : v.lookup (Path.splitParent p).1 = v.lookup (Path.splitParent q).1
  lookup : v.lookup p = v.lookup q
  makePath : v.makePath p = v.makePath q

theorem SameWay.locate (s : v.SameWay p q) : v.locate p = v.locate q := by
  rw [Volume.locate, Volume.locate, s.leaf, s.parent]

theorem SameWay.create (s : v.SameWay p q) (kind : Kind) (permissions : Permissions) :
    v.create p kind permissions = v.create q kind permissions := by
  rw [Volume.create, Volume.create, s.leaf, s.parent]

/-- No operation tells two paths apart that lead the same way. -/
theorem SameWay.run (s : v.SameWay p q) (op : Op) :
    (op.withPath p).run v = (op.withPath q).run v := by
  cases op with
  | mkdir | touch | touchReadOnly | touchWith =>
      exact congrArg (Outcome.ofChange v .handle) (s.create _ _)
  | rm | rmdir | write | cat | chmod | stat | executable | locate =>
      simp only [Op.withPath, Op.run, Volume.rm, Volume.rmdir, Volume.write, Volume.cat,
        Volume.chmod, Volume.stat, Volume.executable?, s.locate]
  | ls | cd => simp only [Op.withPath, Op.run, Volume.ls, Volume.cd, s.lookup]
  | makePath => simp only [Op.withPath, Op.run, s.makePath]
  | resolve _ create => cases create with
    | true => simp only [Op.withPath, Op.run, s.makePath]
    | false => simp only [Op.withPath, Op.run, s.lookup]
  | pwd | usage => rfl

/-! ## From the root to where a relative path starts -/

/-- A walk that creates what is missing creates nothing on a way that is there. -/
theorem descendMaking_append {cs : List Text} (e : v.descend dir cs = .ok d) (cs' : List Text) :
    v.descendMaking dir (cs ++ cs') = v.descendMaking d cs' := by
  induction cs generalizing dir with
  | nil =>
      cases e
      rfl
  | cons c cs ih =>
      rw [descend] at e
      rw [List.cons_append, descendMaking]
      split at e
      case h_1 => contradiction
      case h_2 => contradiction
      case h_3 next hn =>
        rw [hn]
        exact ih e

/-- The path of the current directory before a relative path leads the same way. -/
theorem Navigable.sameWay (hv : Navigable v) (hne : p ≠ []) (hrel : Path.isAbsolute p = false) :
    v.SameWay (v.pwd ++ Path.separator :: p) p := by
  have hcwd := hv.sound.cwd_place
  have hcs : Path.components p ≠ [] := Path.components_ne_nil hne hrel
  have hcomponents : Path.components (v.pwd ++ Path.separator :: p) =
      v.namesOf v.cwd ++ Path.components p := by
    rw [Path.components_append, pwd, hv.components_pathOf hcwd.linked]
  have habs : Path.isAbsolute v.pwd = true := Path.isAbsolute_render _
  have hstart : v.startOf (v.pwd ++ Path.separator :: p) = root := by
    rw [startOf, if_pos (Path.isAbsolute_append habs _)]
  have hrelative : v.startOf p = v.cwd := by
    rw [startOf, hrel]
    rfl
  have hway : ∀ cs, v.descend root (v.namesOf v.cwd ++ cs) = v.descend v.cwd cs := by
    intro cs
    rw [descend_append, hv.descend_namesOf hcwd]
    rfl
  constructor
  case leaf =>
    rw [Path.leaf_eq_getLastD, Path.leaf_eq_getLastD, hcomponents,
      ← List.dropLast_concat_getLast hcs, ← List.append_assoc, List.getLastD_concat,
      List.getLastD_concat]
  case parent =>
    rw [lookup_parent, lookup_parent, hcomponents, hstart, hrelative,
      List.dropLast_append_of_ne_nil hcs, hway]
  case lookup => rw [lookup, lookup, hcomponents, hstart, hrelative, hway]
  case makePath =>
    rw [makePath, makePath, hcomponents, hstart, hrelative,
      descendMaking_append (hv.descend_namesOf hcwd)]

/-- **Relative paths**: on a volume that any run of operations has led to, an
operation gives the same outcome and the same volume on a relative path as on
that path with the path of the current directory and a slash before it. -/
theorem relative_path_as_absolute (hr : Reachable limits v) (hn : 6 ≤ limits.maxNameLen) (op : Op)
    (hop : op.path? = some p) (hne : p ≠ []) (hrel : Path.isAbsolute p = false) :
    (op.withPath (v.pwd ++ Path.separator :: p)).run v = op.run v := by
  have h := ((hr.navigable hn).sameWay hne hrel).run op
  rw [Op.withPath_eq_self hop] at h
  exact h

/-- From inside a directory, up and past it again, creating on the way. -/
theorem relative_path_as_absolute_past_cwd :
    ∃ fresh, format {} = .ok fresh ∧
      ∃ v, v = fresh.runAll [.mkdir "a".toList, .cd "a".toList] ∧ ∃ w,
        (Op.makePath "../a/./b".toList).run v = (.ok (.handle 7), w) ∧
        (Op.makePath "/a/../a/./b".toList).run v = (.ok (.handle 7), w) := by
  have hr := fun fresh hf =>
    (⟨fresh, hf, [.mkdir "a".toList, .cd "a".toList], rfl⟩ : Reachable {} _)
  refine ⟨_, rfl, _, rfl, _, rfl, ?_⟩
  exact relative_path_as_absolute (hr _ rfl) (by decide) (.makePath "../a/./b".toList) rfl
    (by decide) (by decide)

end Volume

end RamFs
