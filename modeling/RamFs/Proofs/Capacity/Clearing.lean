import RamFs.Proofs.Capacity.Missing

/-!
# RamFs.Proofs.Capacity.Clearing

Operations that empty a directory.  Every node of the tree has a path, even if its own
name is none (`Sound.exists_path`), so whatever is not protected can be given all
permissions and removed once it is empty.  A directory is emptied from the node with
the highest handle below it downwards, which never has entries; the nodes before the
directory stay as they are (`Spares`).
-/

namespace RamFs

namespace Volume

variable {limits : Limits} {u v w : Volume} {a c d e h k : Handle}

/-! ## Paths to everything -/

/-- An entry is found by the component that its name was cut from. -/
theorem Sound.exists_component (hs : Sound v) (ht : Tidy v) (hn : Named v)
    (hp : v.parent h = some d) :
    ∃ c, Path.Ordinary c ∧ Path.separator ∉ c ∧ v.child? d (v.cutName c) = some h := by
  obtain ⟨c, ho, hc, hname⟩ := hn h d hp
  have hchild := ht.child?_eq hs hp
  rw [hname] at hchild
  exact ⟨c, ho, hc, hchild⟩

/-- Every directory of the tree is at the end of a walk from the root. -/
theorem Sound.exists_walk (hs : Sound v) (ht : Tidy v) (hn : Named v) (hd : v.Place d) :
    ∃ cs, (∀ c ∈ cs, c ≠ [] ∧ Path.separator ∉ c) ∧ v.descend root cs = .ok d := by
  refine hs.linked_induction (P := fun d => (v.node d).isDirectory = true →
    ∃ cs, (∀ c ∈ cs, c ≠ [] ∧ Path.separator ∉ c) ∧ v.descend root cs = .ok d)
    ?_ ?_ hd.linked hd.isDirectory
  · exact fun _ => ⟨[], by simp, rfl⟩
  · intro h d hp hd ih hdir
    obtain ⟨cs, hcs, hwalk⟩ := ih hd.isDirectory
    obtain ⟨c, ho, hc, hchild⟩ := hs.exists_component ht hn hp
    refine ⟨cs ++ [c], by grind [Path.Ordinary], ?_⟩
    rw [descend_append, hwalk]
    change v.descend d [c] = .ok h
    rw [descend, step_of_child? ho hchild hdir]
    rfl

/-- Every node of the tree has a path. -/
theorem Sound.exists_path (hs : Sound v) (ht : Tidy v) (hn : Named v) (hl : v.Linked h) :
    ∃ path, v.locate path = .ok h := by
  obtain rfl | ⟨d, hp⟩ := hl
  · exact ⟨[Path.separator], rfl⟩
  · obtain ⟨cs, hcs, hwalk⟩ := hs.exists_walk ht hn (hs.parent_place hp)
    obtain ⟨c, ho, hc, hchild⟩ := hs.exists_component ht hn hp
    have hall : ∀ x ∈ cs ++ [c], x ≠ [] ∧ Path.separator ∉ x := by grind [Path.Ordinary]
    refine ⟨Path.render (cs ++ [c]), ?_⟩
    rw [locate_eq, startOf, if_pos (Path.isAbsolute_render _), Path.components_render hall,
      List.dropLast_concat, List.getLastD_concat, hwalk]
    exact leaf_of_child? ho hchild

/-! ## Single operations -/

/-- What is not protected can be given all permissions. -/
theorem Sound.exists_grant (hs : Sound v) (ht : Tidy v) (hn : Named v) (hl : v.Linked h)
    (hf : (v.node h).flags.isSystem = false) :
    ∃ op : Op, (op.run v).2 = v.modify h fun n => { n with permissions := .all } := by
  obtain ⟨path, hpath⟩ := hs.exists_path ht hn hl
  have hallowed : (v.node h).requireUnprotected = .ok () := Node.requireUnprotected_eq_ok.mpr hf
  have hmode : Permissions.ofMode? 7 = some .all := by decide
  refine ⟨.chmod path 7, ?_⟩
  simp [Op.run, chmod, hpath, hallowed, hmode, bind, Except.bind, Outcome.ofEdit]

/-- What the checks before a removal ask for. -/
theorem removable_of {kind : Kind} (hk : (v.node h).kind = kind)
    (hf : (v.node h).flags.isSystem = false) (hp : v.parent h = some d)
    (hw : (v.node d).permissions.canWrite = true) : v.removable h kind = .ok d := by
  have hkind : (v.node h).requireKind kind = .ok () := Node.requireKind_eq_ok.mpr hk
  have hallowed : (v.node h).requireUnprotected = .ok () := Node.requireUnprotected_eq_ok.mpr hf
  have hwrite : (v.node d).requireWrite = .ok () := Node.requireWrite_eq_ok.mpr hw
  simp [removable, hkind, hallowed, hp, hwrite, bind, Except.bind]

/-- What is empty and not protected can be removed from a directory that may be
written. -/
theorem Sound.exists_remove (hs : Sound v) (ht : Tidy v) (hn : Named v)
    (hf : (v.node h).flags.isSystem = false) (hp : v.parent h = some d)
    (hw : (v.node d).permissions.canWrite = true) (hempty : v.children h = []) :
    ∃ (op : Op) (cwd : Handle), (op.run v).2 = { v.detach h with cwd } := by
  obtain ⟨path, hpath⟩ := hs.exists_path ht hn (Or.inr ⟨d, hp⟩)
  cases hk : (v.node h).kind with
  | file =>
    have hr := removable_of hk hf hp hw
    refine ⟨.rm path, (v.detach h).cwd, ?_⟩
    simp [Op.run, rm, hpath, hr, bind, Except.bind, Outcome.ofEdit]
  | directory =>
    have hr := removable_of hk hf hp hw
    refine ⟨.rmdir path, if v.cwd = h then d else v.cwd, ?_⟩
    simp [Op.run, rmdir, hpath, hr, hempty, bind, Except.bind, Outcome.ofEdit]

/-! ## Emptying a directory -/

/-- What was not delivered is not protected. -/
theorem Reachable.isSystem_eq_false (hr : Reachable limits v) (hh : systemNodes ≤ h) :
    (v.node h).flags.isSystem = false := by
  obtain ⟨fresh, hf, ops, rfl⟩ := hr
  exact (frozen_runAll hf ops).unprotected h hh

/-- `w` is `v` with some entries gone, and the nodes before `c` are as they were. -/
structure Spares (c : Handle) (v w : Volume) : Prop extends Shrinks v w where
  used : w.used = v.used
  node : ∀ i, i < c → w.node i = v.node i

theorem Spares.refl (c : Handle) (v : Volume) : Spares c v v := ⟨.refl v, rfl, fun _ _ => rfl⟩

theorem Spares.trans (a : Spares c u v) (b : Spares c v w) : Spares c u w :=
  ⟨a.toShrinks.trans b.toShrinks, b.used.trans a.used,
    fun i hi => (b.node i hi).trans (a.node i hi)⟩

/-- A change of permissions spares the handles before the node. -/
theorem spares_grant (hc : c ≤ h) (v : Volume) (permissions : Permissions) :
    Spares c v (v.modify h fun n => { n with permissions }) where
  toShrinks := (sameLinks_modify v h _ rfl rfl rfl).shrinks
    (keepsNames_modify v h _ (fun _ => rfl) fun _ => rfl)
  used := used_modify v h _
  node _ hi := node_modify_ne (Nat.ne_of_lt (Nat.lt_of_lt_of_le hi hc)) _

/-- Taking off a node spares the handles before its directory. -/
theorem Takes.spares (t : Takes v h d w) (hd : (v.node d).isDirectory = true) (hc : c ≤ d)
    (hlt : d < h) : Spares c v w :=
  ⟨t.shrinks hd, t.used, fun i hi => t.node_other i
    (Nat.ne_of_lt (Nat.lt_trans (Nat.lt_of_lt_of_le hi hc) hlt))
    (Nat.ne_of_lt (Nat.lt_of_lt_of_le hi hc))⟩

/-- What lies below a node came after it. -/
theorem Forest.le_of_below (hf : Forest v) (hb : v.Below a h) : a ≤ h := by
  induction hb with
  | refl => exact Nat.le_refl a
  | tail _ hm ih =>
    have hlt := hf.parent_lt _ _ ((hf.mem_children_iff _ _).mp hm)
    exact ih.trans (Nat.le_of_lt hlt)

/-- What lies below a node has a parent that does, or is the node. -/
theorem Forest.exists_parent_of_below (hf : Forest v) (hb : v.Below a h) (hne : h ≠ a) :
    ∃ d, v.parent h = some d ∧ v.Below a d := by
  cases hp : v.parent h with
  | none => exact absurd ((hf.below_of_top hp).mp hb) hne
  | some d => exact ⟨d, rfl, ((hf.below_of_parent hp).mp hb).resolve_left hne⟩

/-- In a volume that only shrinks nothing comes to lie below a node. -/
theorem Shrinks.below (s : Shrinks v w) (hs : Sound v) (hw : Sound w) (hb : w.Below a h) :
    v.Below a h :=
  Relation.ReflTransGen.mono
    (fun d k hm => hs.mem_children (s.parent k d (hw.parent_of_mem hm))) a h hb

/-- Two operations take an empty node off a directory that was not delivered. -/
theorem Reachable.exists_takeOff (hr : Reachable limits v) (hn : 1 ≤ limits.maxNameLen)
    (hp : v.parent h = some d) (hc : c ≤ d) (hd : systemNodes ≤ d) (hempty : v.children h = []) :
    ∃ ops, Spares c v (v.runAll ops) ∧ (v.runAll ops).parent h = none := by
  have hs := hr.sound
  have hlt : d < h := hs.parent_lt h d hp
  have hused : d < v.used := hs.lt_used_of_linked (hs.linked_parent hp)
  obtain ⟨grant, hgrant⟩ := hs.exists_grant (hr.tidy hn) hr.named (hs.linked_parent hp)
    (hr.isSystem_eq_false hd)
  have same := sameLinks_modify v d (fun n => { n with permissions := .all }) rfl rfl rfl
  have spares := spares_grant hc v .all
  have hopen : ((grant.run v).2.node d).permissions = .all := by
    rw [hgrant, node_modify_self hused]
  rw [← hgrant] at same spares
  have hr' := hr.run grant
  have hp' := (same.parent h).trans hp
  obtain ⟨remove, cwd, hremove⟩ := hr'.sound.exists_remove (hr'.tidy hn) hr'.named
    (hr'.isSystem_eq_false (hd.trans (Nat.le_of_lt hlt))) hp' (by rw [hopen]; rfl)
    ((same.children h).trans hempty)
  have t := hr'.sound.takes hp' cwd
  rw [← hremove] at t
  exact ⟨[grant, remove], spares.trans (t.spares (hr'.sound.parent_place hp').isDirectory hc hlt),
    t.parent_self⟩

/-- Nothing below `c` is in a slot from `n` on, but for `c` itself. -/
def ClearFrom (v : Volume) (c n : Handle) : Prop := ∀ i, n ≤ i → c < i → ¬ v.Below c i

/-- Past the slots in use there is nothing to clear. -/
theorem Sound.clearFrom_used (hs : Sound v) (c : Handle) : v.ClearFrom c v.used := by
  intro i hi hlt hb
  obtain ⟨d, hp, -⟩ := hs.forest.exists_parent_of_below hb (Nat.ne_of_gt hlt)
  exact Nat.not_lt.mpr hi (lt_used_of_parent hp)

/-- One more slot can be cleared: an entry of the node in it would be in a slot that is
clear already, so the node is empty. -/
theorem Reachable.exists_clear_slot (hr : Reachable limits v) (hn : 1 ≤ limits.maxNameLen)
    (hc : systemNodes ≤ c) (hclear : v.ClearFrom c (k + 1)) :
    ∃ ops, Spares c v (v.runAll ops) ∧ (v.runAll ops).ClearFrom c k := by
  by_cases hb : c < k ∧ v.Below c k
  · obtain ⟨hlt, hb⟩ := hb
    have hforest := hr.sound.forest
    obtain ⟨d, hp, hbd⟩ := hforest.exists_parent_of_below hb (Nat.ne_of_gt hlt)
    have hcd : c ≤ d := hforest.le_of_below hbd
    have hempty : v.children k = [] := by
      refine List.eq_nil_iff_forall_not_mem.mpr fun j hj => ?_
      have hkj : k < j := hr.sound.lt_of_mem hj
      exact hclear j hkj (Nat.lt_trans hlt hkj) (hb.tail hj)
    obtain ⟨ops, spares, hgone⟩ := hr.exists_takeOff hn hp hcd (hc.trans hcd) hempty
    have hs' := (hr.runAll ops).sound
    refine ⟨ops, spares, fun i hi hci hbi => ?_⟩
    obtain rfl | hlt := Nat.eq_or_lt_of_le hi
    · obtain ⟨e, he, -⟩ := hs'.forest.exists_parent_of_below hbi (Nat.ne_of_gt hci)
      rw [hgone] at he
      contradiction
    · exact hclear i hlt hci (spares.toShrinks.below hr.sound hs' hbi)
  · refine ⟨[], .refl c v, fun i hi hci hbi => ?_⟩
    obtain rfl | hlt := Nat.eq_or_lt_of_le hi
    · exact hb ⟨hci, hbi⟩
    · exact hclear i hlt hci hbi

/-- Everything from a handle on can be cleared away, from the last slot downwards. -/
theorem Reachable.exists_clear (hr : Reachable limits v) (hn : 1 ≤ limits.maxNameLen)
    (hc : systemNodes ≤ c) {n : Nat} (hclear : v.ClearFrom c n) :
    ∃ ops, Spares c v (v.runAll ops) ∧ (v.runAll ops).ClearFrom c 0 := by
  induction n generalizing v with
  | zero => exact ⟨[], .refl c v, hclear⟩
  | succ n ih =>
    obtain ⟨ops, spares, hclear⟩ := hr.exists_clear_slot hn hc hclear
    obtain ⟨more, spares', hclear⟩ := ih (hr.runAll ops) hclear
    exact ⟨ops ++ more, by rw [runAll_append]; exact spares.trans spares',
      by rw [runAll_append]; exact hclear⟩

/-- Operations empty any entry that was not delivered. -/
theorem Reachable.exists_emptied (hr : Reachable limits v) (hn : 1 ≤ limits.maxNameLen)
    (hc : systemNodes ≤ c) :
    ∃ ops, Spares c v (v.runAll ops) ∧ (v.runAll ops).children c = [] := by
  obtain ⟨ops, spares, hclear⟩ := hr.exists_clear hn hc (hr.sound.clearFrom_used c)
  refine ⟨ops, spares, List.eq_nil_iff_forall_not_mem.mpr fun i hi => ?_⟩
  exact hclear i (Nat.zero_le i) ((hr.runAll ops).sound.lt_of_mem hi) (.single hi)

/-! ## Making room in a directory -/

/-- `w` is `v` with fewer entries in `d`; what comes before them is as it was. -/
structure Roomier (d : Handle) (v w : Volume) : Prop extends Shrinks v w where
  used : w.used = v.used
  node : ∀ i, i < d → w.node i = v.node i
  permissions : (w.node d).permissions = (v.node d).permissions
  fewer : (w.children d).length < (v.children d).length

/-- Operations make room in a directory that may be written and has an entry that was
not delivered. -/
theorem Reachable.exists_roomier (hr : Reachable limits v) (hn : 1 ≤ limits.maxNameLen)
    (hm : c ∈ v.children d) (hc : systemNodes ≤ c)
    (hw : (v.node d).permissions.canWrite = true) :
    ∃ ops, Roomier d v (v.runAll ops) := by
  obtain ⟨ops, spares, hempty⟩ := hr.exists_emptied hn hc
  have hs := hr.sound
  have hr' := hr.runAll ops
  have hlt : d < c := hs.lt_of_mem hm
  have hnode := spares.node d hlt
  have hp : (v.runAll ops).parent c = some d := by
    refine hr'.sound.parent_of_mem ?_
    rw [children, hnode]
    exact hm
  obtain ⟨remove, cwd, hremove⟩ := hr'.sound.exists_remove (hr'.tidy hn) hr'.named
    (hr'.isSystem_eq_false hc) hp (by rw [hnode]; exact hw) hempty
  have hdir := (hr'.sound.parent_place hp).isDirectory
  have t := hr'.sound.takes hp cwd
  rw [← hremove] at t
  refine ⟨ops ++ [remove], ?_⟩
  rw [runAll_append]
  change Roomier d v (remove.run (v.runAll ops)).2
  refine ⟨spares.toShrinks.trans (t.shrinks hdir), t.used.trans spares.used, fun i hi => ?_, ?_, ?_⟩
  · rw [t.node_other i (Nat.ne_of_lt (Nat.lt_trans hi hlt)) (Nat.ne_of_lt hi),
      spares.node i (Nat.lt_trans hi hlt)]
  · rw [t.node_dir, hnode]
  · rw [t.children_dir, children, hnode]
    exact List.length_filter_lt_length_iff_exists.mpr ⟨c, hm, by simp⟩

end Volume

end RamFs
