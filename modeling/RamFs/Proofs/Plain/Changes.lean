import RamFs.Proofs.Plain.View

/-!
# RamFs.Proofs.Plain.Changes

A change at one node of a volume is a change at one place of its view.  The
nodes above the changed one lie on its lineage; every subtree that hangs off
this lineage is the same before and after (`treeAt_congr`), so climbing it turns
a change of the subtree into a change of the whole tree (`treeAt_root_change`).
-/

namespace RamFs

namespace Volume

open Plain (Tree State)

variable {v w : Volume} {a b d e h k dir : Handle}

/-! ## The lineage of a node -/

/-- The lineage of a node is the node itself and the lineage of its parent. -/
theorem Sound.mem_lineage (hs : Sound v) : a ∈ v.lineage d ↔
    a = d ∨ ∃ b, v.parent d = some b ∧ a ∈ v.lineage b := by
  cases hp : v.parent d with
  | none => simp [lineage_of_top hp]
  | some b => simp [hs.lineage_of_parent hp]

theorem Sound.mem_lineage_self (hs : Sound v) : d ∈ v.lineage d := hs.mem_lineage.mpr (Or.inl rfl)

/-- What lies above the parent lies above the node. -/
theorem Sound.mem_lineage_of_parent (hs : Sound v) (hp : v.parent d = some b)
    (ha : a ∈ v.lineage b) : a ∈ v.lineage d := hs.mem_lineage.mpr (Or.inr ⟨b, hp, ha⟩)

/-- What lies above a node was there before it. -/
theorem Sound.le_of_mem_lineage (hs : Sound v) (ha : a ∈ v.lineage d) : a ≤ d := by
  induction d using Nat.strongRecOn with
  | ind d ih =>
      obtain rfl | ⟨b, hp, hb⟩ := hs.mem_lineage.mp ha
      · exact Nat.le_refl a
      · have hlt := hs.parent_lt d b hp
        exact Nat.le_trans (ih b hlt hb) (Nat.le_of_lt hlt)

/-- The parent of a node on a lineage is on it. -/
theorem Sound.parent_mem_lineage (hs : Sound v) (ha : a ∈ v.lineage d)
    (hp : v.parent a = some b) : b ∈ v.lineage d := by
  induction d using Nat.strongRecOn with
  | ind d ih =>
      obtain rfl | ⟨c, hc, hac⟩ := hs.mem_lineage.mp ha
      · exact hs.mem_lineage_of_parent hp hs.mem_lineage_self
      · exact hs.mem_lineage_of_parent hc (ih c (hs.parent_lt d c hc) hac)

/-- Everything above a node of the tree is in the tree. -/
theorem Sound.linked_of_mem_lineage (hs : Sound v) (hl : v.Linked d) (ha : a ∈ v.lineage d) :
    v.Linked a := by
  induction d using Nat.strongRecOn with
  | ind d ih =>
      obtain rfl | ⟨b, hp, hab⟩ := hs.mem_lineage.mp ha
      · exact hl
      · exact ih b (hs.parent_lt d b hp) (hs.linked_parent hp) hab

/-- No two entries of a directory are on one lineage. -/
theorem Sound.eq_of_mem_lineage (hs : Sound v) (ha : a ∈ v.lineage d) (hk : k ∈ v.lineage d)
    (hpa : v.parent a = some b) (hpk : v.parent k = some b) : a = k := by
  induction d using Nat.strongRecOn with
  | ind d ih =>
      have hbelow : ∀ i, v.parent i = some b → v.parent d = some b → i ∉ v.lineage b :=
        fun i hi _ hm => Nat.not_lt_of_le (hs.le_of_mem_lineage hm) (hs.parent_lt i b hi)
      obtain rfl | ⟨c, hc, hac⟩ := hs.mem_lineage.mp ha
      · obtain rfl | ⟨c, hc, hkc⟩ := hs.mem_lineage.mp hk
        · rfl
        · rw [hpa] at hc
          cases hc
          exact absurd hkc (hbelow k hpk hpa)
      · obtain rfl | ⟨c', hc', hkc⟩ := hs.mem_lineage.mp hk
        · rw [hpk] at hc
          cases hc
          exact absurd hac (hbelow a hpa hpk)
        · rw [hc] at hc'
          cases hc'
          exact ih c (hs.parent_lt d c hc) hac hkc

/-! ## What does not change -/

/-- Below nodes that are the same the trees are the same. -/
theorem treeAt_congr (hs : Sound v) (hw : Sound w) {Q : Handle → Prop}
    (closed : ∀ i k, Q i → k ∈ v.children i → Q k) (same : ∀ i, Q i → w.node i = v.node i)
    (hq : Q h) : w.treeAt h = v.treeAt h := by
  -- on the number of slots that follow `h`
  generalize hn : v.used - h = n
  induction n using Nat.strongRecOn generalizing h with
  | ind n ih =>
      rw [hw.treeAt_eq, hs.treeAt_eq, same h hq]
      cases hb : (v.node h).body with
      | file content => rfl
      | directory ks =>
          refine congrArg _ (List.map_congr_left fun k hk => ?_)
          have hm : k ∈ v.children h := by rw [children, Node.children, hb]; exact hk
          have hqk := closed h k hq hm
          have hlt : v.used - k < v.used - h :=
            Nat.sub_lt_sub_left (Nat.lt_trans (hs.lt_of_mem hm) (hs.lt_used_of_mem hm))
              (hs.lt_of_mem hm)
          rw [hn] at hlt
          rw [entryAt, entryAt, same k hqk, ih _ hlt hqk rfl]

/-! ## One change in the whole tree -/

/-- A change of the tree below a node is a change at its place in the tree below
the root, if nothing changes to the left and right of the way there. -/
theorem treeAt_root_change (hs : Sound v) (hw : Sound w) (ht : Tidy v) (hl : v.Linked d)
    {f : Tree → Tree} (top : w.treeAt d = f (v.treeAt d))
    (name : (w.node d).name = (v.node d).name)
    (above : ∀ b, b ∈ v.lineage d → b ≠ d → w.node b = v.node b)
    (beside : ∀ a b k, a ∈ v.lineage d → v.parent a = some b → v.parent k = some b → k ≠ a →
      w.entryAt k = v.entryAt k) :
    w.treeAt root = (v.treeAt root).change f (v.namesOf d) := by
  induction d using Nat.strongRecOn generalizing f with
  | ind d ih =>
      obtain rfl | ⟨b, hp⟩ := hl
      · rw [hs.namesOf_root, top]
        rfl
      · have hlt := hs.parent_lt d b hp
        have hb := hs.parent_place hp
        have hmem : ∀ {a}, a ∈ v.lineage b → a ∈ v.lineage d := hs.mem_lineage_of_parent hp
        have hne : ∀ {a}, a ∈ v.lineage b → a ≠ d := fun ha =>
          Nat.ne_of_lt (Nat.lt_of_le_of_lt (hs.le_of_mem_lineage ha) hlt)
        have hnode : w.node b = v.node b := above b (hmem hs.mem_lineage_self) (Nat.ne_of_lt hlt)
        -- one directory up the change is that of a single entry, found by its name
        have htop : w.treeAt b = (v.treeAt b).change f [(v.node d).name] := by
          have hdir : (w.node b).isDirectory = true := by rw [hnode]; exact hb.isDirectory
          rw [hw.treeAt_of_isDirectory hdir, hs.treeAt_of_isDirectory hb.isDirectory, children,
            hnode, Tree.change, Tree.mapEntries, List.map_map]
          refine congrArg _ (List.map_congr_left fun k hk => ?_)
          have hkp : v.parent k = some b := hs.parent_of_mem hk
          by_cases hkd : k = d
          · simp [hkd, entryAt, Tree.changeNamed, Tree.change, top, name]
          · have hkn : (v.node k).name ≠ (v.node d).name := fun e => hkd (ht b k d hkp hp e)
            rw [beside d b k hs.mem_lineage_self hp hkp hkd]
            simp [entryAt, Tree.changeNamed, hkn]
        rw [ih b hlt hb.linked htop (by rw [hnode]) (fun a ha _ => above a (hmem ha) (hne ha))
          fun a c k ha => beside a c k (hmem ha), hs.namesOf_of_parent hp, Tree.change_append]

/-- What hangs off a lineage is the same if the nodes off it are. -/
theorem entryAt_outside (hs : Sound v) (hw : Sound w)
    (outside : ∀ i, v.Linked i → i ∉ v.lineage e → w.node i = v.node i) (hk : v.Linked k)
    (hout : k ∉ v.lineage e) : w.entryAt k = v.entryAt k := by
  have htree : w.treeAt k = v.treeAt k := by
    refine treeAt_congr (Q := fun i => v.Linked i ∧ i ∉ v.lineage e) hs hw ?_ ?_ ⟨hk, hout⟩
    · intro i c hi hc
      have hp := hs.parent_of_mem hc
      exact ⟨Or.inr ⟨i, hp⟩, fun hm => hi.2 (hs.parent_mem_lineage hm hp)⟩
    · exact fun i hi => outside i hi.1 hi.2
  rw [entryAt, entryAt, outside k hk hout, htree]

/-- The subtrees beside a lineage hang off it. -/
theorem entryAt_beside (hs : Sound v) (hw : Sound w)
    (outside : ∀ i, v.Linked i → i ∉ v.lineage e → w.node i = v.node i) (ha : a ∈ v.lineage e)
    (hpa : v.parent a = some b) (hpk : v.parent k = some b) (hne : k ≠ a) :
    w.entryAt k = v.entryAt k :=
  entryAt_outside hs hw outside (Or.inr ⟨b, hpk⟩) fun hk =>
    hne (hs.eq_of_mem_lineage hk ha hpk hpa)

/-- An entry of a directory is not on the lineage of the directory. -/
theorem Sound.not_mem_lineage (hs : Sound v) (hp : v.parent k = some d) : k ∉ v.lineage d :=
  fun hm => Nat.not_lt_of_le (hs.le_of_mem_lineage hm) (hs.parent_lt k d hp)

/-! ## Changing one node -/

/-- The view after a change of one node that keeps its name and its links. -/
theorem view_modify (hs : Sound v) (ht : Tidy v) (hl : v.Linked h) {f : Node → Node}
    {g : Tree → Tree} (hw : Sound (v.modify h f)) (name : ∀ n, (f n).name = n.name)
    (parent : ∀ n, (f n).parent = n.parent)
    (top : (v.modify h f).treeAt h = g (v.treeAt h)) :
    (v.modify h f).view = { v.view with tree := v.view.tree.change g (v.namesOf h) } := by
  have hu := hs.lt_used_of_linked hl
  have hnode := node_modify_self hu f
  have hother : ∀ i, i ≠ h → (v.modify h f).node i = v.node i := fun i hi => node_modify_ne hi f
  have outside : ∀ i, v.Linked i → i ∉ v.lineage h → (v.modify h f).node i = v.node i :=
    fun i _ hi => hother i fun e => hi (e ▸ hs.mem_lineage_self)
  have htree := treeAt_root_change hs hw ht hl top (by rw [hnode, name])
    (fun b _ hb => hother b hb) fun a b k ha hpa hpk hne =>
      entryAt_beside hs hw outside ha hpa hpk hne
  have hcwd : (v.modify h f).namesOf v.cwd = v.namesOf v.cwd := by
    refine namesOf_congr (Q := fun _ => True) hs hw (fun _ _ _ _ => trivial) (fun i _ => ?_) trivial
    by_cases hi : i = h
    · rw [hi, Volume.parent, hnode, parent, name]
      exact ⟨rfl, rfl⟩
    · rw [Volume.parent, hother i hi]
      exact ⟨rfl, rfl⟩
  rw [view, htree, cwd_modify, hcwd, used_modify]
  rfl

/-- Storing content in a file changes its place in the view and nothing else. -/
theorem view_store (hs : Sound v) (ht : Tidy v) (hl : v.Linked h) (content : Bytes)
    (hf : (v.node h).isFile = true)
    (hw : Sound (v.modify h fun n => { n with body := .file content })) :
    (v.modify h fun n => { n with body := .file content }).view =
      { v.view with tree := v.view.tree.change (.store content) (v.namesOf h) } := by
  refine view_modify hs ht hl hw (fun _ => rfl) (fun _ => rfl) ?_
  have hnode := node_modify_self (hs.lt_used_of_linked hl) fun n => { n with body := .file content }
  rw [hw.treeAt_of_isFile (by rw [hnode]; rfl), hs.treeAt_of_isFile hf, hnode]
  rfl

/-- Changing the permissions of a node changes its place in the view and nothing else. -/
theorem view_grant (hs : Sound v) (ht : Tidy v) (hl : v.Linked h) (permissions : Permissions)
    (hw : Sound (v.modify h fun n => { n with permissions })) :
    (v.modify h fun n => { n with permissions }).view =
      { v.view with tree := v.view.tree.change (.grant permissions) (v.namesOf h) } := by
  refine view_modify hs ht hl hw (fun _ => rfl) (fun _ => rfl) ?_
  have hnode := node_modify_self (hs.lt_used_of_linked hl) fun n => { n with permissions }
  rw [hw.treeAt_eq, hs.treeAt_eq, hnode]
  cases hb : (v.node h).body with
  | file content => rfl
  | directory ks =>
      refine congrArg _ (List.map_congr_left fun k hk => ?_)
      have hp : v.parent k = some h :=
        hs.parent_of_mem (by rw [children, Node.children, hb]; exact hk)
      refine entryAt_outside hs hw (fun i _ hi => node_modify_ne (fun e => ?_) _) (Or.inr ⟨h, hp⟩)
        (hs.not_mem_lineage hp)
      exact hi (e ▸ hs.mem_lineage_self)

/-! ## Adding an entry -/

section Add

variable {name : Text} {kind : Kind} {permissions : Permissions}
  (p : Adds v dir (newNode dir name kind permissions) w)

include p

/-- A new node is an empty entry under its name. -/
theorem Adds.entryAt_new (hw : Sound w) :
    w.entryAt v.used = (name, Tree.empty kind permissions (nameFlags name)) := by
  rw [entryAt, hw.treeAt_eq, p.node_new]
  cases kind <;> rfl

/-- Off the lineage of the directory nothing changes. -/
theorem Adds.node_outside (hs : Sound v) {i : Handle} (hl : v.Linked i) (hi : i ∉ v.lineage dir) :
    w.node i = v.node i :=
  p.node_other i (fun e => hi (e ▸ hs.mem_lineage_self)) (Nat.ne_of_lt (hs.lt_used_of_linked hl))

/-- The directory that a node was added to has one more entry, the last. -/
theorem Adds.treeAt_dir (hs : Sound v) (hw : Sound w) :
    w.treeAt dir =
      Tree.append name (Tree.empty kind permissions (nameFlags name)) (v.treeAt dir) := by
  have hdir : (w.node dir).isDirectory = true := by rw [p.node_dir]; rfl
  have hold : (v.children dir).map w.entryAt = (v.children dir).map v.entryAt := by
    refine List.map_congr_left fun k hk => ?_
    have hk' := hs.parent_of_mem hk
    exact entryAt_outside hs hw (fun _ => p.node_outside hs) (Or.inr ⟨dir, hk'⟩)
      (hs.not_mem_lineage hk')
  rw [hw.treeAt_of_isDirectory hdir, hs.treeAt_of_isDirectory p.isDirectory, p.children_dir,
    List.map_append, hold, List.map_singleton, p.entryAt_new hw, p.node_dir]
  rfl

/-- The view after an entry has been added. -/
theorem Adds.view (hs : Sound v) (hw : Sound w) (ht : Tidy v) (hl : v.Linked dir) :
    w.view = { v.view with
      tree := v.view.tree.change
        (.append name (Tree.empty kind permissions (nameFlags name))) (v.namesOf dir)
      used := v.used + 1 } := by
  have above : ∀ b, b ∈ v.lineage dir → b ≠ dir → w.node b = v.node b := fun b hb hne =>
    p.node_other b hne (Nat.ne_of_lt (hs.lt_used_of_linked (hs.linked_of_mem_lineage hl hb)))
  have htree := treeAt_root_change hs hw ht hl (p.treeAt_dir hs hw) (p.name_other p.ne_used) above
    fun a b k ha hpa hpk hne =>
      entryAt_beside hs hw (fun _ => p.node_outside hs) ha hpa hpk hne
  rw [Volume.view, htree, p.cwd, p.namesOf_other hs hw hs.cwd_place.linked, p.used, p.limits]
  rfl

end Add

/-! ## Taking an entry off -/

section Take

variable (t : Takes v h dir w)

include t

/-- Off the lineage of the entry nothing changes. -/
theorem Takes.node_outside (hs : Sound v) (hp : v.parent h = some dir) {i : Handle}
    (hi : i ∉ v.lineage h) : w.node i = v.node i := by
  have hdir : dir ∈ v.lineage h := hs.mem_lineage_of_parent hp hs.mem_lineage_self
  exact t.node_other i (fun e => hi (e ▸ hs.mem_lineage_self)) fun e => hi (e ▸ hdir)

/-- In a tidy volume the entry of a handle is the entry of its name. -/
theorem Takes.treeAt_dir (hs : Sound v) (hw : Sound w) (ht : Tidy v) (hp : v.parent h = some dir) :
    w.treeAt dir = (v.treeAt dir).remove (v.node h).name := by
  have hplace := hs.parent_place hp
  have hdir : (w.node dir).isDirectory = true := by rw [t.node_dir]; rfl
  have hkeep : (v.children dir).filter (· != h) =
      (v.children dir).filter ((·.1 != (v.node h).name) ∘ v.entryAt) := by
    refine List.filter_congr fun k hk => ?_
    by_cases hkh : k = h
    · simp [hkh, entryAt]
    · have hname : (v.node k).name ≠ (v.node h).name := fun e =>
        hkh (ht dir k h (hs.parent_of_mem hk) hp e)
      rw [bne_iff_ne.mpr hkh]
      exact (bne_iff_ne.mpr hname).symm
  have hsame : ((v.children dir).filter (· != h)).map w.entryAt =
      ((v.children dir).filter (· != h)).map v.entryAt := by
    refine List.map_congr_left fun k hk => ?_
    obtain ⟨hm, hne⟩ := List.mem_filter.mp hk
    exact entryAt_beside hs hw (fun _ _ => t.node_outside hs hp) hs.mem_lineage_self hp
      (hs.parent_of_mem hm) (by simpa using hne)
  rw [hw.treeAt_of_isDirectory hdir, hs.treeAt_of_isDirectory hplace.isDirectory, t.children_dir,
    hsame, hkeep, ← List.filter_map, t.node_dir]
  rfl

/-- The view after an empty entry has been taken off. -/
theorem Takes.view (hs : Sound v) (hw : Sound w) (ht : Tidy v) (hp : v.parent h = some dir)
    (hempty : v.children h = []) (hcwd : w.cwd ≠ h) :
    w.view = { v.view with
      tree := v.view.tree.change (.remove (v.node h).name) (v.namesOf dir)
      cwd := v.namesOf w.cwd } := by
  have hlt := hs.parent_lt h dir hp
  have above : ∀ b, b ∈ v.lineage dir → b ≠ dir → w.node b = v.node b := fun b hb hne =>
    t.node_other b (Nat.ne_of_lt (Nat.lt_of_le_of_lt (hs.le_of_mem_lineage hb) hlt)) hne
  have htree := treeAt_root_change hs hw ht (hs.linked_parent hp) (t.treeAt_dir hs hw ht hp)
    (t.name_eq dir) above fun a b k ha hpa hpk hne =>
      entryAt_beside hs hw (fun _ _ => t.node_outside hs hp) (hs.mem_lineage_of_parent hp ha) hpa
        hpk hne
  rw [Volume.view, htree, t.namesOf_other hs hw hempty hcwd, t.used, t.limits]
  rfl

end Take

end Volume

end RamFs
