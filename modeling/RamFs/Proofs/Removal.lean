import RamFs.Proofs.Capacity.Clearing
import RamFs.Proofs.Handles

/-!
# RamFs.Proofs.Removal

The contract of the operations that remove an entry.  `removalRefusal` lists what
speaks against a removal in the order of the checks, and `Removed` says field by field
what it changes.  Both operations are one (`removal`), and none of them ever meets a
node without a parent: of what a path leads to only the root has none, and the root is
protected (`Reachable.exists_parent`).  A node that has been removed is out of the tree
and stays there, so no path leads to it any more (`Sound.locate_ne_of_loose`).
-/

namespace RamFs

/-- The path of the entry that an operation removes, and the kind it must have. -/
def Op.removal? : Op → Option (Text × Kind)
  | .rm path => some (path, .file)
  | .rmdir path => some (path, .directory)
  | _ => none

namespace Volume

variable {limits : Limits} {v w : Volume} {h dir : Handle} {path : Text} {kind : Kind}
  {x : FsError}

/-- The first of the reasons, if any, for which a node is not removed as one of a kind. -/
def nodeRefusal (v : Volume) (h : Handle) (kind : Kind) : Option FsError :=
  if (v.node h).kind ≠ kind then some .wrongType
  else if (v.node h).flags.isSystem = true then some (.permissionDenied .system)
  else if ∃ dir ∈ v.parent h, (v.node dir).permissions.canWrite = false then
    some (.permissionDenied .write)
  else if kind = .directory ∧ v.children h ≠ [] then some .notEmpty
  else none

/-- The first of the reasons, if any, for which nothing is removed at a path. -/
def removalRefusal (v : Volume) (path : Text) (kind : Kind) : Option FsError :=
  match v.locate path with
  | .error x => some x
  | .ok h => v.nodeRefusal h kind

/-- `w` is `v` with `h` taken out of `dir`, and with the cursor out of `h`, and nothing
else changed. -/
structure Removed (v : Volume) (h dir : Handle) (w : Volume) : Prop where
  held : v.parent h = some dir
  node : w.node h = { v.node h with parent := none }
  directory : ∃ before after, v.children dir = before ++ h :: after ∧ h ∉ before ++ after ∧
    w.node dir = { v.node dir with body := .directory (before ++ after) }
  others : ∀ i, i ≠ h → i ≠ dir → w.node i = v.node i
  cwd : w.cwd = if v.cwd = h then dir else v.cwd
  used : w.used = v.used
  capacity : w.pool.capacity = v.pool.capacity
  limits : w.limits = v.limits

/-! ## Both removals as one -/

/-- The volume after `h` has been taken out of `dir`. -/
def without (v : Volume) (h dir : Handle) : Volume :=
  { v.detach h with cwd := if v.cwd = h then dir else v.cwd }

/-- Removes a node as one of a kind; a directory must be empty. -/
def removeNode (v : Volume) (h : Handle) (kind : Kind) : Except FsError Volume := do
  let dir ← v.removable h kind
  if kind = .directory ∧ v.children h ≠ [] then .error .notEmpty else .ok (v.without h dir)

/-- Removes what a path leads to. -/
def removal (v : Volume) (path : Text) (kind : Kind) : Except FsError Volume := do
  v.removeNode (← v.locate path) kind

/-- A file has no entries and is not the cursor, so removing it is a removal like that
of a directory. -/
theorem Sound.rm_eq_removal (hs : Sound v) (path : Text) : v.rm path = v.removal path .file := by
  refine bind_congr fun h => ?_
  rw [removeNode]
  cases hr : v.removable h .file with
  | error x => rfl
  | ok dir =>
    have hfile : (v.node h).isFile = true := by simp [Node.isFile, (removable_eq_ok hr).1]
    have hsame : v.without h dir = v.detach h := by
      rw [without, if_neg (hs.cwd_ne_of_isFile hfile), ← cwd_detach v h]
    simp [bind, Except.bind, hsame]

theorem rmdir_eq_removal (path : Text) : v.rmdir path = v.removal path .directory := by
  refine bind_congr fun h => bind_congr fun dir => ?_
  by_cases hc : v.children h = []
  · simp [hc, without]
  · simp [hc]

theorem Sound.run_of_removal? (hs : Sound v) {op : Op} (hop : op.removal? = some (path, kind)) :
    op.run v = .ofEdit v (v.removal path kind) := by
  cases op with
  | rm path =>
    cases hop
    rw [Op.run, hs.rm_eq_removal]
  | rmdir path =>
    cases hop
    rw [Op.run, rmdir_eq_removal]
  | _ => contradiction

/-! ## The checks -/

/-- What is attached and not protected has a parent, as the root is protected. -/
theorem Reachable.exists_parent (hr : Reachable limits v) (hl : v.Linked h)
    (hu : (v.node h).flags.isSystem = false) : ∃ dir, v.parent h = some dir := by
  obtain rfl | hp := hl
  · obtain ⟨fresh, hf, ops, rfl⟩ := hr
    have hle := (frozen_runAll hf ops).le_of_unprotected (fresh_format hf) hu
    exact absurd hle (by decide)
  · exact hp

/-- **One check after the other**: a node is refused for the first reason that speaks
against it, and is taken out of its parent if there is none.  It has a parent as soon as
it is not protected. -/
theorem removeNode_cases
    (hp : (v.node h).flags.isSystem = false → ∃ dir, v.parent h = some dir) (kind : Kind) :
    (∃ x, v.nodeRefusal h kind = some x ∧ v.removeNode h kind = .error x) ∨
      (v.nodeRefusal h kind = none ∧
        ∃ dir, v.parent h = some dir ∧ v.removeNode h kind = .ok (v.without h dir)) := by
  rw [nodeRefusal]
  -- the checks in the order in which they are made: kind, protection, parent, emptiness
  by_cases hk : (v.node h).kind = kind
  swap
  · rw [if_pos hk]
    exact Or.inl ⟨_, rfl, by simp [removeNode, removable, Node.requireKind, hk, bind, Except.bind]⟩
  rw [if_neg (not_not.mpr hk)]
  by_cases hf : (v.node h).flags.isSystem = true
  · rw [if_pos hf]
    refine Or.inl ⟨_, rfl, ?_⟩
    simp [removeNode, removable, Node.requireKind, Node.requireUnprotected, hk, hf, bind,
      Except.bind]
  rw [if_neg hf]
  rw [Bool.not_eq_true] at hf
  obtain ⟨dir, hdir⟩ := hp hf
  by_cases hw : ∃ d ∈ v.parent h, (v.node d).permissions.canWrite = false
  · rw [if_pos hw]
    have hdenied : (v.node dir).permissions.canWrite = false := by simpa [hdir] using hw
    refine Or.inl ⟨_, rfl, ?_⟩
    simp [removeNode, removable, Node.requireKind, Node.requireUnprotected, Node.requireWrite,
      hk, hf, hdir, hdenied, bind, Except.bind]
  rw [if_neg hw, removeNode, removable_of hk hf hdir (by simpa [hdir] using hw)]
  by_cases hc : kind = .directory ∧ v.children h ≠ []
  · rw [if_pos hc]
    exact Or.inl ⟨_, rfl, if_pos hc⟩
  · rw [if_neg hc]
    exact Or.inr ⟨rfl, dir, hdir, if_neg hc⟩

/-- No check ever meets a node without a parent. -/
theorem removable_ne_notFound
    (hp : (v.node h).flags.isSystem = false → ∃ dir, v.parent h = some dir) (kind : Kind) :
    v.removable h kind ≠ .error .notFound := by
  intro e
  obtain hk | ⟨_, -, e⟩ := bind_eq_error.mp e
  · rw [Node.requireKind] at hk
    split at hk <;> contradiction
  obtain hf | ⟨_, hf, e⟩ := bind_eq_error.mp e
  · rw [Node.requireUnprotected] at hf
    split at hf <;> contradiction
  obtain ⟨dir, hdir⟩ := hp (Node.requireUnprotected_eq_ok.mp hf)
  rw [hdir] at e
  obtain hw | ⟨_, -, e⟩ := bind_eq_error.mp e
  · cases Node.requireWrite_eq_error hw
  · contradiction

/-! ## What a removal changes -/

/-- Taking one of several different handles off a list splits the list around it. -/
theorem exists_filter_ne {l : List Handle} (hn : l.Nodup) (hm : h ∈ l) :
    ∃ before after, l = before ++ h :: after ∧ h ∉ before ++ after ∧
      l.filter (· != h) = before ++ after := by
  obtain ⟨before, after, hnot, hl, he⟩ := List.exists_erase_eq hm
  rw [hn.erase_eq_filter] at he
  refine ⟨before, after, hl, ?_, he⟩
  rw [← he]
  simp

/-- Without its entry a node is removed. -/
theorem Sound.removed_without (hs : Sound v) (hp : v.parent h = some dir) :
    Removed v h dir (v.without h dir) := by
  have t := hs.takes hp (if v.cwd = h then dir else v.cwd)
  obtain ⟨before, after, hsplit, hnot, hfilter⟩ :=
    exists_filter_ne (hs.nodup_children dir) (hs.mem_children hp)
  exact ⟨hp, t.node_self, ⟨before, after, hsplit, hnot, hfilter ▸ t.node_dir⟩, t.node_other, rfl,
    t.used, t.capacity, t.limits⟩

/-- No path leads to a node that is out of the tree, whatever operations come next. -/
theorem Reachable.locate_ne_of_loose (hr : Reachable limits v) (hu : h < v.used)
    (hloose : v.isAttached h = false) (ops : List Op) (path : Text) :
    (v.runAll ops).locate path ≠ .ok h := by
  intro e
  have hw := (hr.runAll ops).sound
  have hout := (hr.sound.runAll_later ops).detached h hu hloose
  rw [hw.isAttached_of_linked (hw.locate_linked e)] at hout
  contradiction

theorem Removed.isAttached (r : Removed v h dir w) (hs : Sound v) : w.isAttached h = false := by
  have hroot : h ≠ root := by
    rintro rfl
    have := r.held
    rw [hs.parent_root] at this
    contradiction
  have hnone : w.parent h = none := by rw [parent, r.node]
  rw [← Bool.not_eq_true, isAttached_of_top hnone]
  exact hroot

/-! ## The contract -/

/-- **Removal**: in a volume that any run of operations has led to, an operation that
removes an entry fails with the first reason that speaks against it and changes
nothing; without such a reason it takes exactly the node that its path leads to out of
its parent, and no path leads to that node again, whatever comes next.  A node without a
parent is never met. -/
theorem removal_contract (hr : Reachable limits v) {op : Op}
    (hop : op.removal? = some (path, kind)) :
    (∀ x, v.removalRefusal path kind = some x → op.run v = (.error x, v)) ∧
      (v.removalRefusal path kind = none →
        ∃ h dir w, v.locate path = .ok h ∧ op.run v = (.ok .done, w) ∧ Removed v h dir w ∧
          ∀ ops p, (w.runAll ops).locate p ≠ .ok h) ∧
      ∀ h, v.locate path = .ok h → v.removable h kind ≠ .error .notFound := by
  have hs := hr.sound
  have hrun := hs.run_of_removal? hop
  rw [removal] at hrun
  rw [removalRefusal]
  cases hl : v.locate path with
  | error x =>
    refine ⟨fun y e => ?_, fun e => by contradiction, fun h e => by contradiction⟩
    cases e
    rw [hrun, hl]
    rfl
  | ok h =>
    -- only the root has no parent in the tree, and it is protected
    have hp := hr.exists_parent (hs.locate_linked hl)
    rw [hl] at hrun
    change op.run v = .ofEdit v (v.removeNode h kind) at hrun
    refine ⟨fun x e => ?_, fun e => ?_, fun k e => ?_⟩
    · obtain ⟨y, hy, hremove⟩ | ⟨hnone, -⟩ := removeNode_cases hp kind
      · cases hy.symm.trans e
        rw [hrun, hremove]
        rfl
      · cases hnone.symm.trans e
    · obtain ⟨y, hy, -⟩ | ⟨-, dir, hdir, hremove⟩ := removeNode_cases hp kind
      · cases hy.symm.trans e
      rw [hremove] at hrun
      have hremoved := hs.removed_without hdir
      have hr' : Reachable limits (v.without h dir) := by
        have := hr.run op
        rwa [hrun] at this
      refine ⟨h, dir, v.without h dir, rfl, hrun, hremoved, hr'.locate_ne_of_loose ?_
        (hremoved.isAttached hs)⟩
      rw [hremoved.used]
      exact lt_used_of_parent hdir
    · cases e
      exact removable_ne_notFound hp kind

/-- The current directory is removed from between its siblings by a path of dots; where
several reasons speak against a removal the first one is given. -/
theorem removal_contract_of_the_cursor :
    ∃ fresh, format {} = .ok fresh ∧ ∃ v,
      v = fresh.runAll [.makePath "/a/b".toList, .makePath "/a/c/d".toList, .touch "/a/f".toList,
        .rmdir "/a/c/d".toList, .cd "/a/c".toList] ∧
      (∃ w, (Op.rmdir "../c/.".toList).run v = (.ok .done, w) ∧ Removed v 8 6 w ∧
        ∀ ops p, (w.runAll ops).locate p ≠ .ok 8) ∧
      (Op.rm "d/..".toList).run v = (.error .notFound, v) ∧
      (Op.rm "/etc".toList).run v = (.error .wrongType, v) ∧
      (Op.rm "/etc/fsinfo".toList).run v = (.error (.permissionDenied .system), v) ∧
      (Op.rmdir "/".toList).run v = (.error (.permissionDenied .system), v) ∧
      (Op.rmdir "..".toList).run v = (.error .notEmpty, v) ∧
      v.removable root .directory ≠ .error .notFound := by
  obtain ⟨fresh, hf, v, hv, hnone, hlocate, hparent, hroot, h₁, h₂, h₃, h₄, h₅⟩ :
      ∃ fresh, format {} = .ok fresh ∧ ∃ v,
        v = fresh.runAll [.makePath "/a/b".toList, .makePath "/a/c/d".toList,
          .touch "/a/f".toList, .rmdir "/a/c/d".toList, .cd "/a/c".toList] ∧
        v.removalRefusal "../c/.".toList .directory = none ∧
        v.locate "../c/.".toList = .ok 8 ∧ v.parent 8 = some 6 ∧ v.locate "/".toList = .ok root ∧
        v.removalRefusal "d/..".toList .file = some .notFound ∧
        v.removalRefusal "/etc".toList .file = some .wrongType ∧
        v.removalRefusal "/etc/fsinfo".toList .file = some (.permissionDenied .system) ∧
        v.removalRefusal "/".toList .directory = some (.permissionDenied .system) ∧
        v.removalRefusal "..".toList .directory = some .notEmpty :=
    ⟨_, rfl, _, rfl, by decide +kernel⟩
  have hr : Reachable {} v := ⟨fresh, hf, _, hv⟩
  have hop : ∀ path, (Op.rmdir path).removal? = some (path, .directory) := fun _ => rfl
  refine ⟨fresh, hf, v, hv, ?_, (removal_contract hr rfl).1 _ h₁, (removal_contract hr rfl).1 _ h₂,
    (removal_contract hr rfl).1 _ h₃, (removal_contract hr rfl).1 _ h₄,
    (removal_contract hr rfl).1 _ h₅, (removal_contract hr (hop _)).2.2 root hroot⟩
  obtain ⟨h, dir, w, hl, hrun, hremoved, hgone⟩ := (removal_contract hr (hop _)).2.1 hnone
  cases hlocate.symm.trans hl
  cases hparent.symm.trans hremoved.held
  exact ⟨w, hrun, hremoved, hgone⟩

end Volume

end RamFs
