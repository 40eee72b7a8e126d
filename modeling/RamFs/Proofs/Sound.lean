import RamFs.Proofs.Links

/-!
# RamFs.Proofs.Sound

The links of a volume fit together.  `Sound` is the invariant behind everything
that is proved of reachable volumes: parent links and lists of entries say the
same, a parent has the smaller handle, a list of entries grows in handles, and
what no directory holds is empty.  From it follow the facts that walks need:

* `Sound.linked_parent` — a directory with an entry is held itself;
* `Sound.isAttached_iff` — the climb to the top ends at the root exactly for
  the nodes that are `Linked`.

The second half shows that adding a node, taking one off, and any change that
leaves the links alone keep a volume sound.
-/

namespace RamFs

namespace Volume

/-- The root, or a node that some directory holds. -/
def Linked (v : Volume) (h : Handle) : Prop := h = root ∨ ∃ d, v.parent h = some d

/-- A directory that belongs to the tree. -/
structure Place (v : Volume) (h : Handle) : Prop where
  isDirectory : (v.node h).isDirectory = true
  linked : v.Linked h

/-- The links of a volume fit together. -/
structure Sound (v : Volume) : Prop where
  capacity : v.pool.capacity = v.limits.maxNodes.toNat
  root_isDirectory : (v.node root).isDirectory = true
  mem_children_iff : ∀ d h, h ∈ v.children d ↔ v.parent h = some d
  parent_lt : ∀ h d, v.parent h = some d → d < h
  sorted : ∀ d, (v.children d).Pairwise (· < ·)
  bounded : ∀ d, (v.children d).length ≤ v.limits.maxChildren.toNat
  loose_empty : ∀ h, h ≠ root → v.parent h = none → v.children h = []
  cwd_place : v.Place v.cwd

variable {v w : Volume} {h d dir : Handle} {n : Node}

/-! ## Consequences -/

/-- No directory has a child twice, as children stand in the order of their handles. -/
theorem Sound.nodup_children (hs : Sound v) (d : Handle) : (v.children d).Nodup :=
  (hs.sorted d).imp fun hlt => Nat.ne_of_lt hlt

theorem Sound.forest (hs : Sound v) : Forest v :=
  ⟨hs.mem_children_iff, hs.nodup_children, hs.parent_lt⟩

theorem Sound.root_place (hs : Sound v) : v.Place root := ⟨hs.root_isDirectory, Or.inl rfl⟩

theorem Sound.used_pos (hs : Sound v) : 0 < v.used := lt_used_of_isDirectory hs.root_isDirectory

/-- The root has no parent, as no handle is smaller. -/
theorem Sound.parent_root (hs : Sound v) : v.parent root = none := hs.forest.parent_root

theorem Sound.mem_children (hs : Sound v) (hp : v.parent h = some d) : h ∈ v.children d :=
  (hs.mem_children_iff d h).mpr hp

/-- A child has that directory as its parent. -/
theorem Sound.parent_of_mem (hs : Sound v) (hm : h ∈ v.children d) : v.parent h = some d :=
  (hs.mem_children_iff d h).mp hm

theorem Sound.lt_of_mem (hs : Sound v) (hm : h ∈ v.children d) : d < h :=
  hs.parent_lt h d (hs.parent_of_mem hm)

theorem Sound.lt_used_of_mem (hs : Sound v) (hm : h ∈ v.children d) : h < v.used :=
  lt_used_of_parent (hs.parent_of_mem hm)

/-- A node that nothing holds is none of the tree, unless it is the root. -/
theorem Linked.ne_of_loose (hl : v.Linked d) (hr : h ≠ root) (hp : v.parent h = none) : h ≠ d := by
  rintro rfl
  obtain hroot | ⟨e, he⟩ := hl
  · exact hr hroot
  · rw [he] at hp
    contradiction

/-- A node of the tree is in use. -/
theorem Sound.lt_used_of_linked (hs : Sound v) (hl : v.Linked h) : h < v.used := by
  obtain rfl | ⟨d, hp⟩ := hl
  · exact hs.used_pos
  · exact lt_used_of_parent hp

/-- Whatever holds a node belongs to the tree: it has an entry, so it is a
directory, and it cannot be loose, as loose nodes are empty. -/
theorem Sound.parent_place (hs : Sound v) (hp : v.parent h = some d) : v.Place d := by
  have hm : h ∈ v.children d := hs.mem_children hp
  refine ⟨isDirectory_of_mem hm, ?_⟩
  by_cases hr : d = root
  · exact Or.inl hr
  · cases hd : v.parent d with
    | some e => exact Or.inr ⟨e, hd⟩
    | none =>
        rw [hs.loose_empty d hr hd] at hm
        contradiction

/-- A parent belongs to the tree. -/
theorem Sound.linked_parent (hs : Sound v) (hp : v.parent h = some d) : v.Linked d :=
  (hs.parent_place hp).linked

/-- Climbing from a place ends at a place. -/
theorem Sound.above_place (hs : Sound v) (hd : v.Place d) : v.Place (v.above d) := by
  rw [above]
  cases hp : v.parent d with
  | none => exact hd
  | some e => exact hs.parent_place hp

/-- Induction over the nodes of the tree, from the root down. -/
theorem Sound.linked_induction (hs : Sound v) {P : Handle → Prop} (top : P root)
    (down : ∀ h d, v.parent h = some d → v.Place d → P d → P h) (hl : v.Linked h) : P h := by
  induction h using Nat.strongRecOn with
  | ind h ih =>
      obtain rfl | ⟨d, hp⟩ := hl
      · exact top
      · exact down h d hp (hs.parent_place hp) (ih d (hs.parent_lt h d hp) (hs.linked_parent hp))

/-! ## Climbing to the top -/

/-- The lineage of an entry is the entry and then the lineage of its parent. -/
theorem Sound.lineage_of_parent (hs : Sound v) (hp : v.parent h = some d) :
    v.lineage h = h :: v.lineage d := hs.forest.lineage_of_parent hp

/-- The lineage of a node leads from link to link up to the root. -/
theorem Sound.isAttached_of_linked (hs : Sound v) (hl : v.Linked h) : v.isAttached h = true := by
  refine hs.linked_induction (P := fun h => v.isAttached h = true) ?_ ?_ hl
  · simp [isAttached, lineage_of_top hs.parent_root]
  · intro h d hp _ ih
    rw [isAttached, hs.lineage_of_parent hp, List.getLast?_cons_of_ne_nil (lineage_ne_nil v d)]
    exact ih

/-- The climb to the top ends at the root exactly for the nodes of the tree. -/
theorem Sound.isAttached_iff (hs : Sound v) (h : Handle) : v.isAttached h = true ↔ v.Linked h := by
  constructor
  · intro ha
    cases hp : v.parent h with
    | some d => exact Or.inr ⟨d, hp⟩
    | none =>
        rw [isAttached, lineage_of_top hp] at ha
        exact Or.inl (by simpa using ha)
  · exact hs.isAttached_of_linked

/-! ## Names on the way down -/

/-- At the top there are no names. -/
theorem namesOf_of_top (hp : v.parent h = none) : v.namesOf h = [] := by
  rw [namesOf, lineage_of_top hp]
  rfl

theorem Sound.namesOf_root (hs : Sound v) : v.namesOf root = [] := namesOf_of_top hs.parent_root

/-- The names on the way to an entry are those to its parent, and its own. -/
theorem Sound.namesOf_of_parent (hs : Sound v) (hp : v.parent h = some d) :
    v.namesOf h = v.namesOf d ++ [(v.node h).name] := by
  rw [namesOf, hs.lineage_of_parent hp, List.dropLast_cons_of_ne_nil (lineage_ne_nil v d),
    List.map_cons, List.reverse_cons, namesOf]

/-! ## Changes that leave the links alone -/

/-- The links of `w` are those of `v`, and so are the kinds of its nodes. -/
structure SameLinks (v w : Volume) : Prop where
  limits : w.limits = v.limits
  capacity : w.pool.capacity = v.pool.capacity
  parent : ∀ i, w.parent i = v.parent i
  children : ∀ i, w.children i = v.children i
  isDirectory : ∀ i, (w.node i).isDirectory = (v.node i).isDirectory

/-- With the same links a node stays in the tree. -/
theorem SameLinks.linked (s : SameLinks v w) (hl : v.Linked h) : w.Linked h := by
  rw [Linked, s.parent]
  exact hl

/-- With the same links a place stays one. -/
theorem SameLinks.place (s : SameLinks v w) (hp : v.Place h) : w.Place h :=
  ⟨by rw [s.isDirectory]; exact hp.isDirectory, s.linked hp.linked⟩

/-- With the same links a volume stays sound, if the cursor is at a place. -/
theorem SameLinks.sound (s : SameLinks v w) (hs : Sound v) (hc : v.Place w.cwd) : Sound w where
  capacity := by rw [s.capacity, s.limits, hs.capacity]
  root_isDirectory := by rw [s.isDirectory, hs.root_isDirectory]
  mem_children_iff := fun d h => by rw [s.children, s.parent]; exact hs.mem_children_iff d h
  parent_lt := fun h d hp => hs.parent_lt h d (by rw [← s.parent]; exact hp)
  sorted := fun d => by rw [s.children]; exact hs.sorted d
  bounded := fun d => by rw [s.children, s.limits]; exact hs.bounded d
  loose_empty := fun h hr hp => by
    rw [s.children]
    exact hs.loose_empty h hr (by rw [← s.parent]; exact hp)
  cwd_place := s.place hc

/-- Moving the cursor changes no link. -/
theorem sameLinks_enter (v : Volume) (dir : Handle) : SameLinks v { v with cwd := dir } :=
  ⟨rfl, rfl, fun _ => rfl, fun _ => rfl, fun _ => rfl⟩

/-- A change of one node that keeps its parent, its kind and its entries. -/
theorem sameLinks_modify (v : Volume) (h : Handle) (f : Node → Node)
    (hp : (f (v.node h)).parent = (v.node h).parent)
    (hc : (f (v.node h)).children = (v.node h).children)
    (hd : (f (v.node h)).isDirectory = (v.node h).isDirectory) : SameLinks v (v.modify h f) :=
  ⟨rfl, rfl, field_modify (·.parent) hp, field_modify (·.children) hc,
    field_modify (·.isDirectory) hd⟩

/-! ## Adding a node -/

/-- No other node changes its kind. -/
theorem Adds.isDirectory_other (a : Adds v dir n w) {i : Handle} (hi : i ≠ v.used) :
    (w.node i).isDirectory = (v.node i).isDirectory := by
  by_cases hd : i = dir
  · rw [hd, a.node_dir, a.isDirectory]
    rfl
  · rw [a.node_other i hd hi]

/-- A place stays one when a node is added. -/
theorem Adds.place (a : Adds v dir n w) (hp : v.Place h) : w.Place h := by
  have hu : h ≠ v.used := Nat.ne_of_lt (lt_used_of_isDirectory hp.isDirectory)
  refine ⟨by rw [a.isDirectory_other hu]; exact hp.isDirectory, ?_⟩
  rw [Linked, a.parent_other hu]
  exact hp.linked

/-- Adding a node to a directory of the tree keeps a volume sound. -/
theorem Adds.sound (a : Adds v dir n w) (hs : Sound v) (hd : v.Linked dir)
    (hp : n.parent = some dir) (hn : n.children = []) : Sound w where
  capacity := by rw [a.capacity, a.limits, hs.capacity]
  root_isDirectory := by
    have hu : root ≠ v.used := Nat.ne_of_lt hs.used_pos
    rw [a.isDirectory_other hu, hs.root_isDirectory]
  mem_children_iff := (a.forest hs.forest hp hn).mem_children_iff
  parent_lt := (a.forest hs.forest hp hn).parent_lt
  sorted := by
    intro e
    by_cases he : e = dir
    · rw [he, a.children_dir, List.pairwise_append]
      refine ⟨hs.sorted dir, List.pairwise_singleton _ _, fun x hx y hy => ?_⟩
      -- the new handle is the greatest, so the end of the list is its place
      rw [List.mem_singleton.mp hy]
      exact hs.lt_used_of_mem hx
    · rw [a.children_other hn he]
      exact hs.sorted e
  bounded := by
    intro e
    rw [a.limits]
    by_cases he : e = dir
    · rw [he, a.children_dir, List.length_append]
      exact a.room
    · rw [a.children_other hn he]
      exact hs.bounded e
  loose_empty := by
    intro h hr he
    by_cases hu : h = v.used
    · rw [hu, a.parent_new, hp] at he
      contradiction
    · rw [a.parent_other hu] at he
      rw [a.children_other hn (hd.ne_of_loose hr he)]
      exact hs.loose_empty h hr he
  cwd_place := by
    rw [a.cwd]
    exact a.place hs.cwd_place

/-! ## Taking a node off -/

/-- No node changes its kind when one is taken off. -/
theorem Takes.isDirectory (t : Takes v h dir w) (hd : (v.node dir).isDirectory = true)
    (i : Handle) :
    (w.node i).isDirectory = (v.node i).isDirectory := by
  by_cases hi : i = dir
  · rw [hi, t.node_dir, hd]
    rfl
  · by_cases hh : i = h
    · rw [hh, t.node_self]
      rfl
    · rw [t.node_other i hh hi]

/-- Taking an empty node off keeps a volume sound, with the cursor moved out of
the node if it was there. -/
theorem Takes.sound (t : Takes v h dir w) (hs : Sound v) (hp : v.parent h = some dir)
    (hc : v.children h = []) (hcwd : w.cwd = if v.cwd = h then dir else v.cwd) : Sound w := by
  have hdir : v.Place dir := hs.parent_place hp
  have hne : dir ≠ h := Nat.ne_of_lt (hs.parent_lt h dir hp)
  have hkind := t.isDirectory hdir.isDirectory
  have hplace : ∀ i, i ≠ h → v.Place i → w.Place i := by
    intro i hi hpi
    refine ⟨by rw [hkind]; exact hpi.isDirectory, ?_⟩
    rw [Linked, t.parent_other hi]
    exact hpi.linked
  constructor
  case capacity => rw [t.capacity, t.limits, hs.capacity]
  case root_isDirectory => rw [hkind, hs.root_isDirectory]
  case mem_children_iff => exact (t.forest hs.forest hp).mem_children_iff
  case parent_lt => exact (t.forest hs.forest hp).parent_lt
  case sorted =>
    intro e
    by_cases he : e = dir
    · rw [he, t.children_dir]
      exact (hs.sorted dir).filter _
    · rw [t.children_other he]
      exact hs.sorted e
  case bounded =>
    intro e
    rw [t.limits]
    by_cases he : e = dir
    · rw [he, t.children_dir]
      exact Nat.le_trans (List.length_filter_le _ _) (hs.bounded dir)
    · rw [t.children_other he]
      exact hs.bounded e
  case loose_empty =>
    intro i hr hi
    -- the node that was taken off is loose now, so it had to be empty
    by_cases hih : i = h
    · rw [hih, t.children_other (Ne.symm hne), hc]
    · rw [t.parent_other hih] at hi
      rw [t.children_other (hdir.linked.ne_of_loose hr hi)]
      exact hs.loose_empty i hr hi
  case cwd_place =>
    rw [hcwd]
    by_cases hch : v.cwd = h
    · rw [if_pos hch]
      exact hplace dir hne hdir
    · rw [if_neg hch]
      exact hplace v.cwd hch hs.cwd_place

end Volume

end RamFs
