import RamFs.Proofs.Addressable
import RamFs.Proofs.Capacity.Missing

/-!
# RamFs.Proofs.Creation

The contract of the operations that create one entry.  `creationRefusal` lists what
speaks against a new entry at a path in the order of the checks, and `Created` says
field by field what a new entry changes.  An operation fails with the first refusal
that applies and succeeds if none does (`Sound.create_cases`); the path then leads to
what it has created (`Sound.locate_of_create`).
-/

namespace RamFs

/-- The path of the entry that an operation creates, its kind and its permissions. -/
def Op.creation? : Op → Option (Text × Kind × Permissions)
  | .mkdir path => some (path, .directory, .all)
  | .touch path => some (path, .file, .readWrite)
  | .touchReadOnly path => some (path, .file, .read)
  | .touchWith path permissions => some (path, .file, permissions)
  | _ => none

namespace Volume

variable {limits : Limits} {v w : Volume} {dir : Handle} {path name : Text} {kind : Kind}
  {permissions : Permissions} {x : FsError}

/-- The first of the reasons, if any, for which a directory takes no entry of a name. -/
def entryRefusal (v : Volume) (dir : Handle) (name : Text) : Option FsError :=
  if (v.node dir).permissions.canWrite = false then some (.permissionDenied .write)
  else if ∃ h ∈ v.children dir, (v.node h).name = name then some .alreadyExists
  else if v.limits.maxChildren.toNat ≤ (v.children dir).length then some .directoryFull
  else if v.limits.maxNodes.toNat ≤ v.used then some .exhausted
  else none

/-- The first of the reasons, if any, for which no entry is created at a path. -/
def creationRefusal (v : Volume) (path : Text) : Option FsError :=
  let leaf := (Path.splitParent path).2
  if leaf = [] ∨ leaf = Path.here ∨ leaf = Path.up then some .invalidName
  else
    match v.lookup (Path.splitParent path).1 with
    | .error x => some x
    | .ok dir => v.entryRefusal dir (v.cutName leaf)

/-- `w` is `v` with a new entry of `dir` in the next slot, and nothing else changed. -/
structure Created (v : Volume) (dir : Handle) (called : Text) (kind : Kind)
    (permissions : Permissions) (w : Volume) : Prop where
  name : (w.node v.used).name = called
  kind : (w.node v.used).kind = kind
  permissions : (w.node v.used).permissions = permissions
  parent : (w.node v.used).parent = some dir
  children : (w.node v.used).children = []
  content : (w.node v.used).content = []
  isHidden : (w.node v.used).flags.isHidden = true ↔ called.head? = some '.'
  isSystem : (w.node v.used).flags.isSystem = false
  directory : w.node dir = { v.node dir with body := .directory (v.children dir ++ [v.used]) }
  listed : ∀ d, (w.children d).count v.used = if d = dir then 1 else 0
  others : ∀ i, i ≠ dir → i ≠ v.used → w.node i = v.node i
  used : w.used = v.used + 1
  capacity : w.pool.capacity = v.pool.capacity
  limits : w.limits = v.limits
  cwd : w.cwd = v.cwd

/-! ## The checks -/

theorem isSome_child?_iff :
    (v.child? dir name).isSome = true ↔ ∃ h ∈ v.children dir, (v.node h).name = name := by
  simp [child?, List.find?_isSome]

/-- In a full directory a child is refused first of all for that. -/
theorem createChild_of_full (hd : (v.node dir).isDirectory = true)
    (hfull : v.limits.maxChildren.toNat ≤ (v.children dir).length) :
    v.createChild dir name kind permissions = .error .directoryFull := by
  cases e : v.createChild dir name kind permissions with
  | error x =>
    obtain ⟨-, rfl⟩ | ⟨hroom, -⟩ := createChild_eq_error e hd
    · rfl
    · exact absurd hfull (Nat.not_le.mpr hroom)
  | ok r => exact absurd hfull (Nat.not_le.mpr (createChild_eq_ok e).2.room)

/-- With room in the directory a child is refused for want of a slot. -/
theorem createChild_of_exhausted (hd : (v.node dir).isDirectory = true)
    (hroom : (v.children dir).length < v.limits.maxChildren.toNat)
    (hused : v.pool.capacity ≤ v.used) :
    v.createChild dir name kind permissions = .error .exhausted := by
  cases e : v.createChild dir name kind permissions with
  | error x =>
    obtain ⟨hfull, -⟩ | ⟨-, -, rfl⟩ := createChild_eq_error e hd
    · exact absurd hfull (Nat.not_le.mpr hroom)
    · rfl
  | ok r => exact absurd hused (Nat.not_le.mpr (createChild_eq_ok e).2.slot)

/-- What a directory that is written to takes or refuses is decided by what speaks
against the entry. -/
theorem Sound.create_in (hs : Sound v) (ho : Path.Ordinary (Path.splitParent path).2)
    (hl : v.lookup (Path.splitParent path).1 = .ok dir) (kind : Kind)
    (permissions : Permissions) :
    (∃ x, v.entryRefusal dir (v.cutName (Path.splitParent path).2) = some x ∧
        v.create path kind permissions = .error x) ∨
      (v.entryRefusal dir (v.cutName (Path.splitParent path).2) = none ∧
        ∃ w, v.create path kind permissions = .ok (v.used, w)) := by
  have hd := (hs.lookup_place hl).isDirectory
  rw [create_eq_of_lookup ho hl, entryRefusal]
  -- the refusals in their order; each case may use that those before it do not apply
  by_cases hw : (v.node dir).permissions.canWrite = false
  · rw [if_pos hw, Node.requireWrite, hw]
    exact Or.inl ⟨_, rfl, rfl⟩
  have hwrite : (v.node dir).requireWrite = .ok () :=
    Node.requireWrite_eq_ok.mpr (by simpa using hw)
  rw [if_neg hw, hwrite]
  by_cases hc : ∃ h ∈ v.children dir, (v.node h).name = v.cutName (Path.splitParent path).2
  · rw [if_pos hc]
    exact Or.inl ⟨_, rfl, if_pos (isSome_child?_iff.mpr hc)⟩
  have hcreate : (Except.ok () >>= fun _ =>
      if (v.child? dir (v.cutName (Path.splitParent path).2)).isSome then .error .alreadyExists
      else v.createChild dir (v.cutName (Path.splitParent path).2) kind permissions) =
        v.createChild dir (v.cutName (Path.splitParent path).2) kind permissions :=
    if_neg (mt isSome_child?_iff.mp hc)
  rw [if_neg hc, hcreate]
  by_cases hfull : v.limits.maxChildren.toNat ≤ (v.children dir).length
  · rw [if_pos hfull]
    exact Or.inl ⟨_, rfl, createChild_of_full hd hfull⟩
  rw [if_neg hfull, ← hs.capacity]
  by_cases hused : v.pool.capacity ≤ v.used
  · rw [if_pos hused]
    exact Or.inl ⟨_, rfl, createChild_of_exhausted hd (Nat.lt_of_not_le hfull) hused⟩
  · rw [if_neg hused]
    exact Or.inr ⟨rfl, exists_createChild hd (Nat.lt_of_not_le hfull) (Nat.lt_of_not_le hused)⟩

/-- **One check after the other**: an entry is refused for the first reason that speaks
against it, and is created if there is none. -/
theorem Sound.create_cases (hs : Sound v) (path : Text) (kind : Kind)
    (permissions : Permissions) :
    (∃ x, v.creationRefusal path = some x ∧ v.create path kind permissions = .error x) ∨
      (v.creationRefusal path = none ∧ ∃ dir w, v.lookup (Path.splitParent path).1 = .ok dir ∧
        v.create path kind permissions = .ok (v.used, w)) := by
  rw [creationRefusal]
  by_cases hname : (Path.splitParent path).2 = [] ∨ (Path.splitParent path).2 = Path.here ∨
      (Path.splitParent path).2 = Path.up
  · rw [create]
    exact Or.inl ⟨_, if_pos hname, if_pos (by simpa [Path.isSpecial] using hname)⟩
  have ho : Path.Ordinary (Path.splitParent path).2 := by
    simpa [Path.Ordinary, Path.isSpecial] using hname
  simp only [if_neg hname]
  cases hl : v.lookup (Path.splitParent path).1 with
  | error x => exact Or.inl ⟨x, rfl, by simp [create, hl, ho.1, ho.2, bind, Except.bind]⟩
  | ok dir =>
    obtain hrefused | ⟨hnone, w, hcreate⟩ := hs.create_in ho hl kind permissions
    · exact Or.inl hrefused
    · exact Or.inr ⟨hnone, dir, w, rfl, hcreate⟩

/-! ## The new entry -/

theorem isHidden_nameFlags : (nameFlags name).isHidden = true ↔ name.head? = some '.' := by
  rw [nameFlags]
  split
  case isTrue h => simp [h, Flags.isHidden, Flags.contains, Flags.hidden, BitNames.holds]
  case isFalse h => simp [h]; decide

/-- Adding a fresh entry to a directory changes what `Created` says. -/
theorem Adds.created (hs : Sound v) (a : Adds v dir (newNode dir name kind permissions) w) :
    Created v dir name kind permissions w := by
  have hnew := a.node_new
  have hunlisted : ∀ d, v.used ∉ v.children d := hs.forest.used_notMem_children
  constructor
  case name => rw [hnew]; rfl
  case kind => rw [hnew]; exact Body.kind_empty kind
  case permissions => rw [hnew]; rfl
  case parent => rw [hnew]; rfl
  case children => rw [hnew]; exact Body.children_empty kind
  case content => rw [hnew]; exact Body.content_empty kind
  case isHidden => rw [hnew]; exact isHidden_nameFlags
  case isSystem => rw [hnew]; exact isSystem_newNode _ _ _ _
  case directory => exact a.node_dir
  case listed =>
    intro d
    split
    case isTrue hd =>
      rw [hd, a.children_dir, List.count_append, List.count_eq_zero_of_not_mem (hunlisted dir),
        List.count_singleton_self]
    case isFalse hd =>
      rw [a.children_other (Body.children_empty kind) hd,
        List.count_eq_zero_of_not_mem (hunlisted d)]
  case others => exact a.node_other
  case used => exact a.used
  case capacity => exact a.capacity
  case limits => exact a.limits
  case cwd => exact a.cwd

/-- A path that is looked up while entries are added leads where it did. -/
theorem Extends.lookup (es : Extends v w) (hs : Sound v) (hc : w.cwd = v.cwd)
    (e : v.lookup path = .ok dir) : w.lookup path = .ok dir := by
  have hstart : w.startOf path = v.startOf path := by rw [startOf, startOf, hc]
  rw [Volume.lookup, hstart]
  exact Extends.descend es hs (hs.startOf_place path) e

/-- What has been created is where its path leads. -/
theorem Sound.locate_of_create (hs : Sound v) {h : Handle}
    (e : v.create path kind permissions = .ok (h, w)) : w.locate path = .ok h := by
  obtain ⟨ho, dir, hl, -, hnone, hcreate⟩ := create_eq_ok e
  obtain ⟨rfl, a⟩ := createChild_eq_ok hcreate
  have hchild : w.child? dir (w.cutName (Path.splitParent path).2) = some v.used := by
    rw [cutName_congr a.limits, a.child?_eq hs (Body.children_empty kind), hnone]
    simp [newNode]
  rw [locate, Extends.lookup (.single (hs.extend_create e)) hs a.cwd hl]
  exact leaf_of_child? ho hchild

/-! ## The contract -/

theorem run_of_creation? {op : Op} (hop : op.creation? = some (path, kind, permissions))
    (v : Volume) : op.run v = .ofChange v .handle (v.create path kind permissions) := by
  cases op with
  | mkdir | touch | touchReadOnly | touchWith => cases hop; rfl
  | _ => contradiction

/-- **Creation**: in a volume that any run of operations has led to, an operation that
creates one entry fails with the first reason that speaks against it and changes
nothing; without such a reason it succeeds, gives the number of slots that were in use
as the handle, changes what a new entry of the parent changes, and makes its path lead
to it. -/
theorem creation_contract (hr : Reachable limits v) {op : Op}
    (hop : op.creation? = some (path, kind, permissions)) :
    (∀ x, v.creationRefusal path = some x → op.run v = (.error x, v)) ∧
      (v.creationRefusal path = none →
        ∃ dir w, v.lookup (Path.splitParent path).1 = .ok dir ∧
          op.run v = (.ok (.handle v.used), w) ∧
          Created v dir (v.cutName (Path.splitParent path).2) kind permissions w ∧
          w.locate path = .ok v.used) := by
  have hs := hr.sound
  rw [run_of_creation? hop]
  obtain ⟨y, hy, hcreate⟩ | ⟨hnone, dir, w, hl, hcreate⟩ := hs.create_cases path kind permissions
  · rw [hy, hcreate]
    exact ⟨fun x e => by cases e; rfl, fun e => by contradiction⟩
  · rw [hnone, hcreate]
    refine ⟨fun x e => by contradiction, fun _ => ?_⟩
    obtain ⟨-, dir', hl', -, -, hchild⟩ := create_eq_ok hcreate
    cases hl.symm.trans hl'
    have a := (createChild_eq_ok hchild).2
    rw [cutName_cutName] at a
    exact ⟨dir, w, hl, rfl, a.created hs, hs.locate_of_create hcreate⟩

/-- A hidden file with a cut name takes the last slot and the last place in the root;
from then on several reasons apply at once, and the first one is given. -/
theorem creation_contract_at_the_limits :
    ∃ fresh, format { maxNameLen := 8, maxChildren := 5, maxNodes := 7 } = .ok fresh ∧
      (∃ w, (Op.touchReadOnly "bin/.././.hidden_file//".toList).run fresh = (.ok (.handle 6), w) ∧
        Created fresh root ".hidden_".toList .file .read w ∧
        w.locate "bin/.././.hidden_file//".toList = .ok 6) ∧
      ∃ v, v = fresh.runAll [.touchReadOnly "/.hidden_".toList] ∧
        (Op.mkdir "/nowhere/..".toList).run v = (.error .invalidName, v) ∧
        (Op.touch "/.hidden_file/x".toList).run v = (.error .notADirectory, v) ∧
        (Op.touch "/etc/fsinfo".toList).run v = (.error (.permissionDenied .write), v) ∧
        (Op.touchWith ".hidden_folder".toList .all).run v = (.error .alreadyExists, v) ∧
        (Op.mkdir "/a".toList).run v = (.error .directoryFull, v) := by
  obtain ⟨fresh, hf, hnone, hdir, hcut, v, hv, h₁, h₂, h₃, h₄, h₅⟩ :
      ∃ fresh, format { maxNameLen := 8, maxChildren := 5, maxNodes := 7 } = .ok fresh ∧
        fresh.creationRefusal "bin/.././.hidden_file//".toList = none ∧
        fresh.lookup (Path.splitParent "bin/.././.hidden_file//".toList).1 = .ok root ∧
        fresh.cutName (Path.splitParent "bin/.././.hidden_file//".toList).2 = ".hidden_".toList ∧
        ∃ v, v = fresh.runAll [.touchReadOnly "/.hidden_".toList] ∧
          v.creationRefusal "/nowhere/..".toList = some .invalidName ∧
          v.creationRefusal "/.hidden_file/x".toList = some .notADirectory ∧
          v.creationRefusal "/etc/fsinfo".toList = some (.permissionDenied .write) ∧
          v.creationRefusal ".hidden_folder".toList = some .alreadyExists ∧
          v.creationRefusal "/a".toList = some .directoryFull :=
    ⟨_, rfl, by decide +kernel, by decide +kernel, by decide +kernel, _, rfl, by decide +kernel⟩
  have hstart : Reachable _ fresh := ⟨fresh, hf, [], rfl⟩
  have hr : Reachable _ v := ⟨fresh, hf, _, hv⟩
  refine ⟨fresh, hf, ?_, v, hv, (creation_contract hr rfl).1 _ h₁,
    (creation_contract hr rfl).1 _ h₂, (creation_contract hr rfl).1 _ h₃,
    (creation_contract hr rfl).1 _ h₄, (creation_contract hr rfl).1 _ h₅⟩
  have hop : (Op.touchReadOnly "bin/.././.hidden_file//".toList).creation? =
      some ("bin/.././.hidden_file//".toList, .file, .read) := rfl
  obtain ⟨dir, w, hl, hrun, hcreated, hlocate⟩ := (creation_contract hstart hop).2 hnone
  cases hdir.symm.trans hl
  rw [hcut] at hcreated
  rw [(fresh_format hf).used_eq] at hrun hlocate
  exact ⟨w, hrun, hcreated, hlocate⟩

end Volume

end RamFs
