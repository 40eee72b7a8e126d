import RamFs.Volume.Change

/-!
# RamFs.Proofs.Edits

What the edits on links do to every single node.  A volume is read through
`node`, so each edit gets one equation for it; the edits that may fail get a
relation between the volume before and after:

* `Adds` — a node has been put into the next slot and listed last in a directory;
* `Takes` — a node has been taken off the directory that held it.

Nothing here assumes that the links of a volume fit together.
-/

namespace RamFs

namespace Volume

/-! ## Reading nodes -/

/-- Only slots in use hold a node. -/
theorem used_of_get?_eq_some {v : Volume} {h : Handle} {n : Node} (e : v.get? h = some n) :
    h < v.used := by
  rw [used, ← Pool.isSome_get?]
  change (v.get? h).isSome = true
  rw [e, Option.isSome_some]

/-- Past the slots in use there is no node. -/
theorem get?_of_used_le {v : Volume} {h : Handle} (hu : v.used ≤ h) : v.get? h = none := by
  cases e : v.get? h with
  | none => rfl
  | some n => exact absurd (used_of_get?_eq_some e) (Nat.not_lt.mpr hu)

/-- A slot that is not in use reads as the fresh node. -/
theorem node_of_used_le {v : Volume} {h : Handle} (hu : v.used ≤ h) : v.node h = default := by
  rw [node, get?_of_used_le hu, Option.getD_none]

theorem node_of_get? {v : Volume} {h : Handle} {n : Node} (e : v.get? h = some n) :
    v.node h = n := by
  rw [node, e, Option.getD_some]

/-- Every slot in use holds its node. -/
theorem get?_of_lt {v : Volume} {h : Handle} (hu : h < v.used) : v.get? h = some (v.node h) := by
  have hs : (v.get? h).isSome = true := Pool.isSome_get?.mpr hu
  obtain ⟨n, hn⟩ := Option.isSome_iff_exists.mp hs
  rw [hn, node_of_get? hn]

/-- Only a slot in use has a parent link. -/
theorem lt_used_of_parent {v : Volume} {h d : Handle} (hp : v.parent h = some d) : h < v.used := by
  refine Nat.lt_of_not_le fun hu => ?_
  rw [parent, node_of_used_le hu] at hp
  contradiction

/-- Only a slot in use holds a directory. -/
theorem lt_used_of_isDirectory {v : Volume} {h : Handle} (hd : (v.node h).isDirectory = true) :
    h < v.used := by
  refine Nat.lt_of_not_le fun hu => ?_
  rw [node_of_used_le hu] at hd
  contradiction

/-- Only a directory has entries. -/
theorem isDirectory_of_mem {v : Volume} {h d : Handle} (hm : h ∈ v.children d) :
    (v.node d).isDirectory = true := by
  rw [children, Node.children] at hm
  cases hb : (v.node d).body with
  | file c => rw [hb] at hm; simp [Body.children] at hm
  | directory cs => simp [Node.isDirectory, Node.kind, hb, Body.kind]

/-- A directory is its list of children. -/
theorem body_of_isDirectory {n : Node} (hd : n.isDirectory = true) :
    n.body = .directory n.children := by
  cases hb : n.body with
  | file c => simp [Node.isDirectory, Node.kind, hb, Body.kind] at hd
  | directory cs => simp [Node.children, hb, Body.children]

/-- A file is its content. -/
theorem body_of_isFile {n : Node} (hf : n.isFile = true) : n.body = .file n.content := by
  cases hb : n.body with
  | file c => simp [Node.content, hb, Body.content]
  | directory cs => simp [Node.isFile, Node.kind, hb, Body.kind] at hf

theorem isDirectory_eq_not_isFile (n : Node) : n.isDirectory = !n.isFile := by
  cases hb : n.body <;> simp [Node.isDirectory, Node.isFile, Node.kind, hb, Body.kind]

/-! ## Changing one node -/

/-- The node of every slot after one of them was changed. -/
theorem node_modify (v : Volume) (h : Handle) (f : Node → Node) (i : Handle) :
    (v.modify h f).node i = if h = i ∧ i < v.used then f (v.node i) else v.node i := by
  rw [node, get?_modify]
  by_cases hi : h = i
  · by_cases hu : i < v.used
    · rw [if_pos hi, if_pos ⟨hi, hu⟩, get?_of_lt hu, Option.map_some, Option.getD_some]
    · rw [if_pos hi, if_neg (fun c => hu c.2), get?_of_used_le (Nat.le_of_not_lt hu),
        Option.map_none, node_of_used_le (Nat.le_of_not_lt hu), Option.getD_none]
  · rw [if_neg hi, if_neg (fun c => hi c.1), node]

theorem node_modify_self {v : Volume} {h : Handle} (hu : h < v.used) (f : Node → Node) :
    (v.modify h f).node h = f (v.node h) := by
  rw [node_modify, if_pos ⟨rfl, hu⟩]

theorem node_modify_ne {v : Volume} {h i : Handle} (hi : i ≠ h) (f : Node → Node) :
    (v.modify h f).node i = v.node i := by
  rw [node_modify, if_neg (fun c => hi c.1.symm)]

/-- What a change of one node keeps of it is kept of every node. -/
theorem field_modify {α : Type} {v : Volume} {h : Handle} (field : Node → α) {f : Node → Node}
    (hf : field (f (v.node h)) = field (v.node h)) (i : Handle) :
    field ((v.modify h f).node i) = field (v.node i) := by
  rw [node_modify]
  split
  case isTrue hi => rw [← hi.1, hf]
  case isFalse => rfl

/-! ## Adding a node -/

/-- `w` is `v` with the node `n` in its next slot, listed as the last entry of
`dir`, where there was room for both. -/
structure Adds (v : Volume) (dir : Handle) (n : Node) (w : Volume) : Prop where
  limits : w.limits = v.limits
  cwd : w.cwd = v.cwd
  capacity : w.pool.capacity = v.pool.capacity
  used : w.used = v.used + 1
  slot : v.used < v.pool.capacity
  room : (v.children dir).length < v.limits.maxChildren.toNat
  isDirectory : (v.node dir).isDirectory = true
  node_dir : w.node dir = { v.node dir with body := .directory (v.children dir ++ [v.used]) }
  node_new : w.node v.used = n
  node_other : ∀ i, i ≠ dir → i ≠ v.used → w.node i = v.node i

/-- A node is never added to itself. -/
theorem Adds.ne_used {v w : Volume} {dir : Handle} {n : Node} (a : Adds v dir n w) :
    dir ≠ v.used := Nat.ne_of_lt (lt_used_of_isDirectory a.isDirectory)

/-- The nodes once one has been put into the next slot. -/
theorem node_of_add {v : Volume} {n : Node} {h : Handle} {q : Pool}
    (e : v.pool.add n = .ok (h, q)) (i : Handle) :
    ({ v with pool := q } : Volume).node i = if i = v.used then n else v.node i := by
  obtain ⟨-, -, -, -, hget⟩ := Pool.add_eq_ok e
  change (q.get? i).getD default = _
  rw [hget, used]
  by_cases hi : i = v.pool.used
  · rw [if_pos hi, if_pos hi, Option.getD_some]
  · rw [if_neg hi, if_neg hi]
    rfl

/-- Creating an entry that succeeds adds one node and gives its handle. -/
theorem createChild_eq_ok {v w : Volume} {dir h : Handle} {name : Text} {kind : Kind}
    {permissions : Permissions} (e : v.createChild dir name kind permissions = .ok (h, w)) :
    h = v.used ∧ Adds v dir (newNode dir (v.cutName name) kind permissions) w := by
  unfold createChild at e
  split at e
  case h_1 => contradiction
  case h_2 children hb =>
    split at e
    case isTrue => contradiction
    case isFalse hroom =>
      split at e
      case h_1 => contradiction
      case h_2 a q ha =>
        have hnode := node_of_add ha
        obtain ⟨hslot, rfl, hcap, hused, -⟩ := Pool.add_eq_ok ha
        cases e
        have hd : (v.node dir).isDirectory = true := by
          simp [Node.isDirectory, Node.kind, hb, Body.kind]
        have hc : v.children dir = children := by
          simp [Volume.children, Node.children, hb, Body.children]
        have hlt : dir < v.used := lt_used_of_isDirectory hd
        -- the volume before the new entry is linked
        let u : Volume := { v with pool := q }
        have hu : u.used = v.used + 1 := hused
        refine ⟨rfl, ⟨rfl, rfl, hcap, ?_, hslot, ?_, hd, ?_, ?_, ?_⟩⟩
        · change (u.modify dir _).used = v.used + 1
          rw [used_modify, hu]
        · rw [hc]
          exact Nat.lt_of_not_le hroom
        · change (u.modify dir _).node dir = _
          have hdu : dir < u.used := by rw [hu]; exact Nat.lt_succ_of_lt hlt
          rw [node_modify_self hdu, hnode, if_neg (Nat.ne_of_lt hlt), hb, hc]
          rfl
        · change (u.modify dir _).node v.used = _
          rw [node_modify_ne (Nat.ne_of_gt hlt), hnode, if_pos rfl]
        · intro i hi hn
          change (u.modify dir _).node i = _
          rw [node_modify_ne hi, hnode, if_neg hn]

/-- Why an entry cannot be created; the directory is looked at before the pool. -/
theorem createChild_eq_error {v : Volume} {dir : Handle} {name : Text} {kind : Kind}
    {permissions : Permissions} {x : FsError}
    (e : v.createChild dir name kind permissions = .error x)
    (hd : (v.node dir).isDirectory = true) :
    (v.limits.maxChildren.toNat ≤ (v.children dir).length ∧ x = .directoryFull) ∨
      ((v.children dir).length < v.limits.maxChildren.toNat ∧ v.used = v.pool.capacity ∧
        x = .exhausted) := by
  unfold createChild at e
  rw [body_of_isDirectory hd] at e
  simp only at e
  split at e
  case isTrue hfull =>
    cases e
    exact Or.inl ⟨hfull, rfl⟩
  case isFalse hroom =>
    split at e
    case h_1 y ha =>
      obtain ⟨rfl, hused⟩ := Pool.add_eq_error ha
      cases e
      exact Or.inr ⟨Nat.lt_of_not_le hroom, hused, rfl⟩
    case h_2 => contradiction

/-- The new node may be changed before anything else happens. -/
theorem Adds.modify_new {v w : Volume} {dir : Handle} {n : Node} (a : Adds v dir n w)
    (f : Node → Node) : Adds v dir (f n) (w.modify v.used f) where
  limits := a.limits
  cwd := a.cwd
  capacity := a.capacity
  used := by rw [used_modify, a.used]
  slot := a.slot
  room := a.room
  isDirectory := a.isDirectory
  node_dir := by rw [node_modify_ne a.ne_used, a.node_dir]
  node_new := by
    have hu : v.used < w.used := by rw [a.used]; exact Nat.lt_succ_self _
    rw [node_modify_self hu, a.node_new]
  node_other := fun i hi hn => by rw [node_modify_ne hn, a.node_other i hi hn]

/-! ## Taking a node off -/

/-- `w` is `v` with the node `h` taken off `dir`: the link between the two is
gone on both sides, and every other node is as it was. -/
structure Takes (v : Volume) (h dir : Handle) (w : Volume) : Prop where
  limits : w.limits = v.limits
  capacity : w.pool.capacity = v.pool.capacity
  used : w.used = v.used
  node_self : w.node h = { v.node h with parent := none }
  node_dir : w.node dir =
    { v.node dir with body := .directory ((v.children dir).filter (· != h)) }
  node_other : ∀ i, i ≠ h → i ≠ dir → w.node i = v.node i

/-- Detaching a node takes it off the directory that holds it. -/
theorem takes_detach {v : Volume} {h dir : Handle} (hp : v.parent h = some dir) (hne : h ≠ dir)
    (hd : (v.node dir).isDirectory = true) : Takes v h dir (v.detach h) := by
  have hu : h < v.used := lt_used_of_parent hp
  have hdu : dir < v.used := lt_used_of_isDirectory hd
  unfold detach
  rw [hp]
  simp only
  refine ⟨rfl, rfl, by rw [used_modify, used_modify], ?_, ?_, ?_⟩
  · rw [node_modify_ne hne, node_modify_self hu]
  · rw [node_modify_self (by rw [used_modify]; exact hdu), node_modify_ne hne.symm,
      body_of_isDirectory hd]
    rfl
  · intro i hi hid
    rw [node_modify_ne hid, node_modify_ne hi]

/-- Taking a node off leaves the cursor where it is. -/
theorem cwd_detach (v : Volume) (h : Handle) : (v.detach h).cwd = v.cwd := by
  unfold detach
  split <;> rfl

end Volume

end RamFs
