import RamFs.Proofs.Fresh

/-!
# RamFs.Proofs.SystemArea

The protected entries are frozen: no run of operations changes anything about
them.  The protection is spread over several checks — the system flag for
removing and for changing permissions, the write bit of a directory for adding
to it, the write bit of a file for writing it — and `Edit` has exactly these
checks, so `Frozen` is kept by every single change (`Edit.frozen`).
-/

namespace RamFs

namespace Volume

variable {limits : Limits} {fresh v w : Volume} {h : Handle}

/-- Two nodes that differ in nothing but their entries. -/
structure SameFace (m n : Node) : Prop where
  name : n.name = m.name
  kind : n.kind = m.kind
  permissions : n.permissions = m.permissions
  flags : n.flags = m.flags
  content : n.content = m.content
  parent : n.parent = m.parent

theorem SameFace.refl (n : Node) : SameFace n n := ⟨rfl, rfl, rfl, rfl, rfl, rfl⟩

theorem SameFace.trans {l m n : Node} (a : SameFace l m) (b : SameFace m n) : SameFace l n :=
  ⟨b.name.trans a.name, b.kind.trans a.kind, b.permissions.trans a.permissions,
    b.flags.trans a.flags, b.content.trans a.content, b.parent.trans a.parent⟩

/-- Other entries in a directory leave its face. -/
theorem sameFace_entries {n : Node} (hd : n.isDirectory = true) (hs : List Handle) :
    SameFace n { n with body := .directory hs } := by
  have hb := body_of_isDirectory hd
  constructor <;> simp [Node.kind, Node.content, hb, Body.kind, Body.content]

/-- Adding a node leaves the faces of those that are there. -/
theorem Adds.sameFace {dir : Handle} {n : Node} (a : Adds v dir n w) (hh : h ≠ v.used) :
    SameFace (v.node h) (w.node h) := by
  by_cases hd : h = dir
  · rw [hd, a.node_dir]
    exact sameFace_entries a.isDirectory _
  · rw [a.node_other h hd hh]
    exact .refl _

/-- Taking a node off leaves the faces of all others. -/
theorem Takes.sameFace {dir i : Handle} (t : Takes v h dir w)
    (hd : (v.node dir).isDirectory = true) (hi : i ≠ h) : SameFace (v.node i) (w.node i) := by
  by_cases hid : i = dir
  · rw [hid, t.node_dir]
    exact sameFace_entries hd _
  · rw [t.node_other i hi hid]
    exact .refl _

/-- The protected entries of `v` are those of the delivered volume `fresh`: the
same nodes under the same parents with the same entries, except that the root
may have more; and nothing else is protected. -/
structure Frozen (fresh v : Volume) : Prop where
  used_le : systemNodes ≤ v.used
  faces : ∀ h, h < systemNodes → SameFace (fresh.node h) (v.node h)
  root_children : [binHandle, etcHandle, sysHandle, bootHandle] <+: v.children root
  bin_children : v.children binHandle = []
  etc_children : v.children etcHandle = [infoHandle]
  sys_children : v.children sysHandle = []
  boot_children : v.children bootHandle = []
  unprotected : ∀ h, systemNodes ≤ h → (v.node h).flags.isSystem = false

/-! ## The delivered volume -/

/-- A node that is delivered is protected. -/
theorem isSystem_protectedNode (dir : Handle) (name : Text) (kind : Kind)
    (permissions : Permissions) :
    (protectedNode dir name kind permissions).flags.isSystem = true := by
  change ((nameFlags name).union .system).isSystem = true
  rw [nameFlags]
  split <;> decide

/-- A node that is created later is not protected. -/
theorem isSystem_newNode (dir : Handle) (name : Text) (kind : Kind) (permissions : Permissions) :
    (newNode dir name kind permissions).flags.isSystem = false := by
  change (nameFlags name).isSystem = false
  rw [nameFlags]
  split <;> decide

/-- All delivered nodes are protected. -/
theorem Fresh.isSystem (hf : Fresh limits fresh) (hh : h < systemNodes) :
    (fresh.node h).flags.isSystem = true := by
  obtain rfl | rfl | rfl | rfl | rfl | rfl := lt_systemNodes_cases hh
  · rw [hf.node_root]; rfl
  · rw [hf.node_bin]; exact isSystem_protectedNode _ _ _ _
  · rw [hf.node_etc]; exact isSystem_protectedNode root _ .directory .readExecute
  · rw [hf.node_sys]; exact isSystem_protectedNode _ _ _ _
  · rw [hf.node_boot]; exact isSystem_protectedNode _ _ _ _
  · rw [hf.node_info]; exact isSystem_protectedNode etcHandle _ .file .read

theorem canWrite_readExecute : Permissions.readExecute.canWrite = false := by decide

theorem canWrite_read : Permissions.read.canWrite = false := by decide

/-- Of the delivered nodes only the root may be written. -/
theorem Fresh.eq_root_of_canWrite (hf : Fresh limits fresh) (hh : h < systemNodes)
    (hw : (fresh.node h).permissions.canWrite = true) : h = root := by
  obtain rfl | rfl | rfl | rfl | rfl | rfl := lt_systemNodes_cases hh
  · rfl
  · rw [hf.node_bin] at hw; exact absurd (canWrite_readExecute.symm.trans hw) Bool.false_ne_true
  · rw [hf.node_etc] at hw; exact absurd (canWrite_readExecute.symm.trans hw) Bool.false_ne_true
  · rw [hf.node_sys] at hw; exact absurd (canWrite_readExecute.symm.trans hw) Bool.false_ne_true
  · rw [hf.node_boot] at hw; exact absurd (canWrite_readExecute.symm.trans hw) Bool.false_ne_true
  · rw [hf.node_info] at hw; exact absurd (canWrite_read.symm.trans hw) Bool.false_ne_true

/-- A new volume is its own delivered one. -/
theorem Fresh.frozen (hf : Fresh limits fresh) : Frozen fresh fresh where
  used_le := Nat.le_of_eq hf.used_eq.symm
  faces := fun h _ => .refl _
  root_children := by rw [children, hf.node_root]; exact List.prefix_rfl
  bin_children := by rw [children, hf.node_bin]; rfl
  etc_children := by rw [children, hf.node_etc]; rfl
  sys_children := by rw [children, hf.node_sys]; rfl
  boot_children := by rw [children, hf.node_boot]; rfl
  unprotected := fun h hh => by
    rw [node_of_used_le (by rw [hf.used_eq]; exact hh)]
    rfl

/-! ## What a frozen volume still allows -/

/-- An unprotected node is none of the delivered ones. -/
theorem Frozen.le_of_unprotected (hz : Frozen fresh v) (hf : Fresh limits fresh)
    (hu : (v.node h).flags.isSystem = false) : systemNodes ≤ h := by
  refine Nat.le_of_not_lt fun hh => ?_
  rw [(hz.faces h hh).flags, hf.isSystem hh] at hu
  contradiction

/-- A node that may be written is the root or none of the delivered ones. -/
theorem Frozen.root_or_le_of_canWrite (hz : Frozen fresh v) (hf : Fresh limits fresh)
    (hw : (v.node h).permissions.canWrite = true) : h = root ∨ systemNodes ≤ h := by
  by_cases hh : h < systemNodes
  · rw [(hz.faces h hh).permissions] at hw
    exact Or.inl (hf.eq_root_of_canWrite hh hw)
  · exact Or.inr (Nat.le_of_not_lt hh)

/-- A change that keeps the faces of the delivered nodes, the entries of all of
them but the root, and protects nothing new. -/
theorem Frozen.of_same (hz : Frozen fresh v) (hu : v.used ≤ w.used)
    (faces : ∀ h, h < systemNodes → SameFace (v.node h) (w.node h))
    (children : ∀ h, h < systemNodes → h ≠ root → w.children h = v.children h)
    (roots : [binHandle, etcHandle, sysHandle, bootHandle] <+: w.children root)
    (unprotected : ∀ h, systemNodes ≤ h → (w.node h).flags.isSystem = false) : Frozen fresh w where
  used_le := Nat.le_trans hz.used_le hu
  faces := fun h hh => (hz.faces h hh).trans (faces h hh)
  root_children := roots
  bin_children := by rw [children _ (by decide) (by decide), hz.bin_children]
  etc_children := by rw [children _ (by decide) (by decide), hz.etc_children]
  sys_children := by rw [children _ (by decide) (by decide), hz.sys_children]
  boot_children := by rw [children _ (by decide) (by decide), hz.boot_children]
  unprotected := unprotected

/-- Changing a node that was not delivered, without protecting it. -/
theorem Frozen.modify (hz : Frozen fresh v) (hh : systemNodes ≤ h) (f : Node → Node)
    (hf : ∀ n, (f n).flags = n.flags) : Frozen fresh (v.modify h f) := by
  have hne : ∀ i, i < systemNodes → (v.modify h f).node i = v.node i := fun i hi =>
    node_modify_ne (Nat.ne_of_lt (Nat.lt_of_lt_of_le hi hh)) f
  refine hz.of_same (Nat.le_of_eq (used_modify v h f).symm) ?_ ?_ ?_ ?_
  · intro i hi
    rw [hne i hi]
    exact .refl _
  · intro i hi _
    rw [children, hne i hi, children]
  · rw [children, hne root (by decide)]
    exact hz.root_children
  · intro i hi
    rw [node_modify]
    split
    · rw [hf]
      exact hz.unprotected i hi
    · exact hz.unprotected i hi

/-- Adding a node outside the protected directories leaves them frozen. -/
theorem Adds.frozen {dir : Handle} {n : Node} (a : Adds v dir n w) (hz : Frozen fresh v)
    (hdir : dir = root ∨ systemNodes ≤ dir) (hc : n.children = []) (hn : n.flags.isSystem = false) :
    Frozen fresh w := by
  have hlt : ∀ i, i < systemNodes → i ≠ v.used := fun i hi =>
    Nat.ne_of_lt (Nat.lt_of_lt_of_le hi hz.used_le)
  refine hz.of_same (by rw [a.used]; exact Nat.le_succ _) (fun i hi => a.sameFace (hlt i hi))
    ?_ ?_ ?_
  · intro i hi hr
    refine a.children_other hc fun hd => ?_
    obtain h0 | h0 := hdir
    · exact hr (hd.trans h0)
    · rw [hd] at hi
      exact Nat.not_lt.mpr h0 hi
  · by_cases hd : root = dir
    · rw [hd, a.children_dir, ← hd]
      exact hz.root_children.trans (List.prefix_append _ _)
    · rw [a.children_other hc hd]
      exact hz.root_children
  · intro i hi
    by_cases hu : i = v.used
    · rw [hu, a.node_new, hn]
    · by_cases hd : i = dir
      · rw [hd, a.node_dir]
        exact hz.unprotected dir (hd ▸ hi)
      · rw [a.node_other i hd hu]
        exact hz.unprotected i hi

/-- Taking off a node that was not delivered leaves the area frozen. -/
theorem Takes.frozen {dir : Handle} (t : Takes v h dir w) (hz : Frozen fresh v)
    (hd : (v.node dir).isDirectory = true) (hdir : dir = root ∨ systemNodes ≤ dir)
    (hh : systemNodes ≤ h) : Frozen fresh w := by
  have hlt : ∀ i, i < systemNodes → i ≠ h := fun i hi =>
    Nat.ne_of_lt (Nat.lt_of_lt_of_le hi hh)
  refine hz.of_same (Nat.le_of_eq t.used.symm) (fun i hi => t.sameFace hd (hlt i hi)) ?_ ?_ ?_
  · intro i hi hr
    refine t.children_other fun hid => ?_
    obtain h0 | h0 := hdir
    · exact hr (hid.trans h0)
    · rw [hid] at hi
      exact Nat.not_lt.mpr h0 hi
  · by_cases hid : root = dir
    · rw [hid, t.children_dir, ← hid]
      -- the delivered entries of the root come first, and `h` is none of them
      have hp := hz.root_children.filter (· != h)
      have hkeep : [binHandle, etcHandle, sysHandle, bootHandle].filter (· != h) =
          [binHandle, etcHandle, sysHandle, bootHandle] := by
        simp [hlt binHandle (by decide), hlt etcHandle (by decide), hlt sysHandle (by decide),
          hlt bootHandle (by decide)]
      rw [hkeep] at hp
      exact hp
    · rw [t.children_other hid]
      exact hz.root_children
  · intro i hi
    by_cases hih : i = h
    · rw [hih, t.node_self]
      exact hz.unprotected h hh
    · by_cases hid : i = dir
      · rw [hid, t.node_dir]
        exact hz.unprotected dir (hid ▸ hi)
      · rw [t.node_other i hih hid]
        exact hz.unprotected i hi

/-- **Step lemma**: every single change leaves the system area frozen. -/
theorem Edit.frozen (e : Edit v w) (hs : Sound v) (hf : Fresh limits fresh)
    (hz : Frozen fresh v) : Frozen fresh w := by
  cases e with
  | add dir component kind permissions place writable named _ adds =>
      exact adds.frozen hz (hz.root_or_le_of_canWrite hf writable) (Body.children_empty kind)
        (isSystem_newNode _ _ _ _)
  | remove h dir held unprotected writable empty =>
      exact (hs.takes held _).frozen hz (hs.parent_place held).isDirectory
        (hz.root_or_le_of_canWrite hf writable) (hz.le_of_unprotected hf unprotected)
  | enter dir place executable =>
      exact ⟨hz.used_le, hz.faces, hz.root_children, hz.bin_children, hz.etc_children,
        hz.sys_children, hz.boot_children, hz.unprotected⟩
  | store h text linked file writable =>
      refine hz.modify ?_ _ fun n => rfl
      obtain rfl | hh := hz.root_or_le_of_canWrite hf writable
      · have := hs.root_isDirectory
        rw [isDirectory_eq_not_isFile, file] at this
        contradiction
      · exact hh
  | grant h permissions linked unprotected =>
      exact hz.modify (hz.le_of_unprotected hf unprotected) _ fun n => rfl

/-- No run changes anything about the protected entries. -/
theorem frozen_runAll (hf : format limits = .ok fresh) (ops : List Op) :
    Frozen fresh (fresh.runAll ops) := by
  have hr : Reachable limits (fresh.runAll ops) := ⟨fresh, hf, ops, rfl⟩
  refine hr.of_edits (P := Frozen fresh) (fun v e => ?_) fun v w hs hz e =>
    e.frozen hs (fresh_format hf) hz
  rw [hf] at e
  cases e
  exact (fresh_format hf).frozen

/-- Where nothing can be added to the delivered volume, nothing ever is. -/
theorem frozen_of_not_extend (hf : format limits = .ok fresh)
    (hstuck : ∀ v w, v.limits = limits → Sound v → Frozen fresh v → v.used = systemNodes →
      ¬ Extend v w) (hr : Reachable limits v) : Frozen fresh v ∧ v.used = systemNodes := by
  have hfresh := fresh_format hf
  refine (hr.of_edits (P := fun v => v.limits = limits ∧ Frozen fresh v ∧ v.used = systemNodes)
    ?_ ?_).2
  · intro u e
    rw [hf] at e
    cases e
    exact ⟨hfresh.limits_eq, hfresh.frozen, hfresh.used_eq⟩
  · rintro u w hs ⟨hl, hz, hu⟩ e
    obtain hadd | hused := e.extend_or_used_eq hs
    · exact absurd hadd (hstuck u w hl hs hz hu)
    · exact ⟨e.limits_eq.trans hl, e.frozen hs hfresh hz, hused.trans hu⟩

/-- In a volume with no other nodes than the delivered ones only the root takes
entries. -/
theorem Frozen.eq_root_of_canWrite {dir : Handle} (hz : Frozen fresh v) (hf : Fresh limits fresh)
    (hu : v.used = systemNodes) (hd : (v.node dir).isDirectory = true)
    (hw : (v.node dir).permissions.canWrite = true) : dir = root := by
  obtain hroot | hle := hz.root_or_le_of_canWrite hf hw
  · exact hroot
  · have hlt := lt_used_of_isDirectory hd
    rw [hu] at hlt
    exact absurd hlt (Nat.not_lt.mpr hle)

/-- A frozen node still belongs to the tree. -/
theorem Frozen.linked (hz : Frozen fresh v) (hf : Fresh limits fresh) (hh : h < systemNodes) :
    v.Linked h := by
  have hp : v.parent h = fresh.parent h := (hz.faces h hh).parent
  rw [Linked, hp, parent]
  obtain rfl | rfl | rfl | rfl | rfl | rfl := lt_systemNodes_cases hh
  · exact Or.inl rfl
  · rw [hf.node_bin]; exact Or.inr ⟨root, rfl⟩
  · rw [hf.node_etc]; exact Or.inr ⟨root, rfl⟩
  · rw [hf.node_sys]; exact Or.inr ⟨root, rfl⟩
  · rw [hf.node_boot]; exact Or.inr ⟨root, rfl⟩
  · rw [hf.node_info]; exact Or.inr ⟨etcHandle, rfl⟩

/-- The permissions of a protected node are never changed, whatever path leads to it. -/
theorem chmod_of_isSystem {path : Text} (mode : UInt32) (hl : v.locate path = .ok h)
    (hf : (v.node h).flags.isSystem = true) :
    v.chmod path mode = .error (.permissionDenied .system) := by
  rw [chmod, hl]
  simp [bind, Except.bind, Node.requireUnprotected, hf]

/-- **The system area**: in every volume that a run of operations leads to, the
delivered nodes are attached where they were, with the same face and, but for
the root, the same entries; nothing else carries the system flag; and their
permissions cannot be changed by any path that leads to them. -/
theorem system_area_frozen (hf : format limits = .ok fresh) (ops : List Op) :
    Fresh limits fresh ∧ Frozen fresh (fresh.runAll ops) ∧
      (∀ h, h < systemNodes → (fresh.runAll ops).isAttached h = true) ∧
      ∀ path h mode, (fresh.runAll ops).locate path = .ok h → h < systemNodes →
        (fresh.runAll ops).chmod path mode = .error (.permissionDenied .system) := by
  have hfresh := fresh_format hf
  have hz := frozen_runAll hf ops
  have hs : Sound (fresh.runAll ops) := Reachable.sound ⟨fresh, hf, ops, rfl⟩
  refine ⟨hfresh, hz, fun h hh => hs.isAttached_of_linked (hz.linked hfresh hh), ?_⟩
  intro path h mode hl hh
  refine chmod_of_isSystem mode hl ?_
  rw [(hz.faces h hh).flags, hfresh.isSystem hh]

/-- A run that tries every way into the system area, and a path that leads to
the description of the volume in a roundabout way. -/
theorem system_area_frozen_after_attacks :
    ∃ fresh, format {} = .ok fresh ∧
      Frozen fresh (fresh.runAll [.chmod "/etc".toList 7, .rm "/etc/fsinfo".toList,
        .mkdir "/bin/x".toList, .makePath "/etc/a/b".toList, .cd "/etc".toList,
        .write "fsinfo".toList "x".toList, .touch "a".toList, .rmdir "/.boot".toList]) ∧
      (fresh.runAll [.cd "/etc".toList]).chmod "../etc/./fsinfo".toList 7 =
        .error (.permissionDenied .system) :=
  ⟨_, rfl, (@system_area_frozen {} _ rfl _).2.1,
    (@system_area_frozen {} _ rfl [.cd "/etc".toList]).2.2.2 _ infoHandle 7 rfl (by decide)⟩

end Volume

end RamFs
