import Mathlib.Logic.Equiv.Basic
import RamFs.Proofs.Creation

/-!
# RamFs.Proofs.Commute

Entries that are created in two directories do not get in each other's way.  Handles are
given out in order, so which of the two comes first shows in their handles, and in nothing
else.  `exchange` swaps two handles wherever a volume has them: as slots, in the links of
its nodes and as its cursor.

Whether a directory `Admits` a name is up to that directory, so it does not change while an
entry is added to another one (`Adds.admits_iff`).  Two additions have one equation for each
node (`AddsBoth`), and the equations for the two orders are the same up to the exchange
(`AddsBoth.eq_exchange`).
-/

namespace RamFs

/-! ## Other handles -/

namespace Node

variable {f : Handle → Handle} {n : Node}

/-- A node with other handles for its links. -/
def rename (f : Handle → Handle) (n : Node) : Node :=
  { n with body := n.body.mapChildren (·.map f), parent := n.parent.map f }

/-- The children of a renamed node are renamed. -/
theorem children_rename (f : Handle → Handle) (n : Node) :
    (n.rename f).children = n.children.map f := by
  cases hb : n.body <;> simp [rename, children, Body.mapChildren, Body.children, hb]

theorem map_parent_eq_self (hp : ∀ d, n.parent = some d → f d = d) :
    n.parent.map f = n.parent := by
  cases h : n.parent with
  | none => rfl
  | some d => rw [Option.map_some, hp d h]

theorem map_eq_self {cs : List Handle} (hc : ∀ c ∈ cs, f c = c) : cs.map f = cs :=
  (List.map_congr_left hc).trans (List.map_id' cs)

/-- A node with no renamed link stays as it is. -/
theorem rename_eq_self (hc : ∀ h ∈ n.children, f h = h) (hp : ∀ d, n.parent = some d → f d = d) :
    n.rename f = n := by
  have hbody : n.body.mapChildren (·.map f) = n.body := by
    rw [children] at hc
    cases hb : n.body with
    | file c => rfl
    | directory cs =>
        rw [hb] at hc
        exact congrArg Body.directory (map_eq_self hc)
  rw [rename, hbody, map_parent_eq_self hp]

/-- A directory whose links are kept, but for its last entry. -/
theorem rename_listed {cs : List Handle} {h : Handle} (hc : ∀ c ∈ cs, f c = c)
    (hp : ∀ d, n.parent = some d → f d = d) :
    { n with body := .directory (cs ++ [h]) }.rename f =
      { n with body := .directory (cs ++ [f h]) } := by
  have hcs : (cs ++ [h]).map f = cs ++ [f h] := by
    rw [List.map_append, map_eq_self hc, List.map_singleton]
  rw [rename, map_parent_eq_self hp, Body.mapChildren, hcs]

end Node

namespace Volume

variable {limits : Limits} {v w x y z : Volume} {d e h i j : Handle} {m n : Node} {name : Text}

/-- A new node in a directory that is not renamed stays as it is. -/
theorem rename_newNode {f : Handle → Handle} (hd : f d = d) (kind : Kind)
    (permissions : Permissions) :
    (newNode d name kind permissions).rename f = newNode d name kind permissions :=
  Node.rename_eq_self
    (fun h hm => by rw [Node.children, newNode, Body.children_empty] at hm; contradiction)
    (fun c hc => by cases hc; exact hd)

/-- The volume with two handles exchanged. -/
def exchange (v : Volume) (i j : Handle) : Volume :=
  let other := Equiv.swap i j
  { v with
    pool := ⟨Array.ofFn fun h : Fin v.used => (v.node (other h)).rename other, v.pool.capacity,
      by rw [Array.size_ofFn]; exact v.pool.size_le⟩
    cwd := other v.cwd }

@[simp] theorem used_exchange (v : Volume) (i j : Handle) : (v.exchange i j).used = v.used :=
  Array.size_ofFn

/-- The node at a handle is the one at the other, with its links renamed. -/
theorem node_exchange (hu : h < v.used) :
    (v.exchange i j).node h = (v.node (Equiv.swap i j h)).rename (Equiv.swap i j) := by
  refine node_of_get? ?_
  change (Array.ofFn _)[h]? = _
  rw [Array.getElem?_ofFn, dif_pos hu]

/-- The children at a handle are those at the other, renamed. -/
theorem children_exchange (hu : h < v.used) : (v.exchange i j).children h =
    (v.children (Equiv.swap i j h)).map (Equiv.swap i j) := by
  rw [children, node_exchange hu, Node.children_rename, children]

/-- A volume is its limits, its capacity, its cursor and its nodes. -/
theorem eq_of_node (hl : w.limits = v.limits) (hp : w.pool.capacity = v.pool.capacity)
    (hc : w.cwd = v.cwd) (hu : w.used = v.used) (hn : ∀ h < v.used, w.node h = v.node h) :
    w = v := by
  have hpool : w.pool = v.pool := by
    refine Pool.ext_get? hp fun h => ?_
    change w.get? h = v.get? h
    by_cases hh : h < v.used
    · rw [get?_of_lt hh, get?_of_lt (hu ▸ hh), hn h hh]
    · have hle := Nat.le_of_not_lt hh
      rw [get?_of_used_le hle, get?_of_used_le (hu ▸ hle)]
  cases v
  cases w
  cases hl
  cases hpool
  cases hc
  rfl

/-! ## Two entries in two directories -/

/-- `x` is `v` with the nodes `m` and `n` in its next two slots, each the last entry of a
directory of its own. -/
structure AddsBoth (v : Volume) (d : Handle) (m : Node) (e : Handle) (n : Node) (x : Volume) :
    Prop where
  limits : x.limits = v.limits
  cwd : x.cwd = v.cwd
  capacity : x.pool.capacity = v.pool.capacity
  used : x.used = v.used + 2
  node_fst : x.node v.used = m
  node_snd : x.node (v.used + 1) = n
  dir_fst : x.node d = { v.node d with body := .directory (v.children d ++ [v.used]) }
  dir_snd : x.node e = { v.node e with body := .directory (v.children e ++ [v.used + 1]) }
  other : ∀ h < v.used, h ≠ d → h ≠ e → x.node h = v.node h

/-- Two nodes added in turn to different directories. -/
theorem Adds.both (a : Adds v d m w) (b : Adds w e n x) (hne : d ≠ e)
    (he : (v.node e).isDirectory = true) : AddsBoth v d m e n x := by
  have hd : d < v.used := lt_used_of_isDirectory a.isDirectory
  have heu : e < v.used := lt_used_of_isDirectory he
  have hw := a.used
  have hold : ∀ h < v.used, h ≠ v.used ∧ h ≠ w.used := fun h hh => by omega
  have hnext : v.used ≠ w.used := by omega
  have hnode : w.node e = v.node e := a.node_other e hne.symm (hold e heu).1
  constructor
  case limits => rw [b.limits, a.limits]
  case cwd => rw [b.cwd, a.cwd]
  case capacity => rw [b.capacity, a.capacity]
  case used => rw [b.used, a.used]
  case node_fst => rw [b.node_other _ (hold e heu).1.symm hnext, a.node_new]
  case node_snd => rw [← hw, b.node_new]
  case dir_fst => rw [b.node_other d hne (hold d hd).2, a.node_dir]
  case dir_snd => rw [b.node_dir, children, hnode, hw, children]
  case other =>
    intro h hh hhd hhe
    rw [b.node_other h hhe (hold h hh).2, a.node_other h hhd (hold h hh).1]

/-- **Either order**: two entries in two directories make the same volume, whichever comes
first, up to the exchange of their handles. -/
theorem AddsBoth.eq_exchange (hs : Sound v) (ab : AddsBoth v d m e n x) (ba : AddsBoth v e n d m z)
    (hd : d < v.used) (he : e < v.used)
    (hm : ∀ f : Handle → Handle, f d = d → m.rename f = m)
    (hn : ∀ f : Handle → Handle, f e = e → n.rename f = n) :
    z = x.exchange v.used (v.used + 1) := by
  have hfix : ∀ h < v.used, Equiv.swap v.used (v.used + 1) h = h := fun h hh =>
    Equiv.swap_apply_of_ne_of_ne (by omega) (by omega)
  have hlinks : ∀ h, (∀ c ∈ v.children h, Equiv.swap v.used (v.used + 1) c = c) ∧
      ∀ p, (v.node h).parent = some p → Equiv.swap v.used (v.used + 1) p = p := fun h =>
    ⟨fun c hc => hfix c (hs.lt_used_of_mem hc),
      fun p hp => hfix p (Nat.lt_trans (hs.parent_lt h p hp) (lt_used_of_parent hp))⟩
  have hcwd : v.cwd < v.used := lt_used_of_isDirectory hs.cwd_place.isDirectory
  refine eq_of_node (ba.limits.trans ab.limits.symm) (ba.capacity.trans ab.capacity.symm) ?cwd ?used
    fun h hh => ?nodes
  case cwd =>
    change z.cwd = Equiv.swap v.used (v.used + 1) x.cwd
    rw [ab.cwd, ba.cwd, hfix _ hcwd]
  case used => rw [used_exchange, ab.used, ba.used]
  case nodes =>
    rw [used_exchange] at hh
    rw [node_exchange hh]
    rw [ab.used] at hh
    -- only the two directories list a new handle, and the new nodes link to old handles alone
    obtain hold | rfl | rfl : h < v.used ∨ h = v.used ∨ h = v.used + 1 := by omega
    · rw [hfix h hold]
      by_cases hhd : h = d
      · rw [hhd, ab.dir_fst, ba.dir_snd, Node.rename_listed (hlinks d).1 (hlinks d).2,
          Equiv.swap_apply_left]
      by_cases hhe : h = e
      · rw [hhe, ab.dir_snd, ba.dir_fst, Node.rename_listed (hlinks e).1 (hlinks e).2,
          Equiv.swap_apply_right]
      rw [ab.other h hold hhd hhe, ba.other h hold hhe hhd,
        Node.rename_eq_self (hlinks h).1 (hlinks h).2]
    · rw [Equiv.swap_apply_left, ab.node_snd, ba.node_fst, hn _ (hfix e he)]
    · rw [Equiv.swap_apply_right, ab.node_fst, ba.node_snd, hm _ (hfix d hd)]

/-! ## What a directory admits -/

/-- A directory that may be written, has no entry of a name, and has room for one. -/
structure Admits (v : Volume) (dir : Handle) (name : Text) : Prop where
  isDirectory : (v.node dir).isDirectory = true
  writable : (v.node dir).permissions.canWrite = true
  unnamed : v.child? dir name = none
  room : (v.children dir).length < v.limits.maxChildren.toNat

/-- A new entry of another directory makes no difference. -/
theorem Adds.admits_iff (a : Adds v d n w) (hs : Sound v) (hn : n.children = []) (hne : e ≠ d)
    (he : e < v.used) : w.Admits e name ↔ v.Admits e name := by
  have hnode : w.node e = v.node e := a.node_other e hne (Nat.ne_of_lt he)
  have hchildren : w.children e = v.children e := a.children_other hn hne
  have hchild : w.child? e name = v.child? e name := by simp [a.child?_eq hs hn, hne]
  constructor
  · rintro ⟨hd, hw, hc, hroom⟩
    exact ⟨hnode ▸ hd, hnode ▸ hw, hchild ▸ hc, by rwa [hchildren, a.limits] at hroom⟩
  · rintro ⟨hd, hw, hc, hroom⟩
    exact ⟨hnode ▸ hd, hnode ▸ hw, hchild ▸ hc, by rwa [hchildren, a.limits]⟩

variable {path : Text} {kind : Kind} {permissions : Permissions}

/-- What has been created was admitted. -/
theorem Sound.admits_of_create (hs : Sound v) (e : v.create path kind permissions = .ok (h, w))
    (hl : v.lookup (Path.splitParent path).1 = .ok d) :
    Path.Ordinary (Path.splitParent path).2 ∧ v.Admits d (v.cutName (Path.splitParent path).2) ∧
      h = v.used ∧
      Adds v d (newNode d (v.cutName (Path.splitParent path).2) kind permissions) w := by
  obtain ⟨ho, d', hl', hwrite, hnone, hcreate⟩ := create_eq_ok e
  cases hl.symm.trans hl'
  obtain ⟨rfl, a⟩ := createChild_eq_ok hcreate
  rw [cutName_cutName] at a
  exact ⟨ho, ⟨(hs.lookup_place hl).isDirectory, hwrite, hnone, a.room⟩, rfl, a⟩

/-- What is admitted is created, if a slot is left. -/
theorem Admits.exists_create (ad : v.Admits d (v.cutName (Path.splitParent path).2))
    (ho : Path.Ordinary (Path.splitParent path).2)
    (hl : v.lookup (Path.splitParent path).1 = .ok d) (hslot : v.used < v.pool.capacity)
    (kind : Kind) (permissions : Permissions) :
    ∃ w, v.create path kind permissions = .ok (v.used, w) ∧
      Adds v d (newNode d (v.cutName (Path.splitParent path).2) kind permissions) w := by
  obtain ⟨w, hcreate⟩ := @exists_createChild v d (v.cutName (Path.splitParent path).2) kind
    permissions ad.isDirectory ad.room hslot
  have a := (createChild_eq_ok hcreate).2
  rw [cutName_cutName] at a
  exact ⟨w, (create_eq_createChild ho hl ad.writable ad.unnamed).trans hcreate, a⟩

/-- After an entry has been created, another path leads where it did, and another directory
admits what it did. -/
theorem Sound.after_create (hs : Sound v) (hcreate : v.create path kind permissions = .ok (h, w))
    (hl : v.lookup (Path.splitParent path).1 = .ok d) :
    Sound w ∧ (∀ p e, v.lookup p = .ok e → w.lookup p = .ok e) ∧
      ∀ e name, e ≠ d → e < v.used → (w.Admits e name ↔ v.Admits e name) := by
  obtain ⟨-, -, -, a⟩ := hs.admits_of_create hcreate hl
  have ext : Extends v w := .single (hs.extend_create hcreate)
  exact ⟨(Extends.edits ext).sound hs, fun p e => ext.lookup hs a.cwd,
    fun e name => a.admits_iff hs (Body.children_empty kind)⟩

/-! ## Calls -/

section

variable {path' : Text} {kind' : Kind} {permissions' : Permissions}

/-- Two entries that can be created in two directories, one after the other, can be created
the other way round. -/
theorem Sound.create_comm (hs : Sound v) (hl : v.lookup (Path.splitParent path).1 = .ok d)
    (hl' : v.lookup (Path.splitParent path').1 = .ok e) (hne : d ≠ e)
    (hcreate : v.create path kind permissions = .ok (i, w))
    (hcreate' : w.create path' kind' permissions' = .ok (j, x)) :
    i = v.used ∧ j = v.used + 1 ∧
      ∃ y, v.create path' kind' permissions' = .ok (v.used, y) ∧
        y.create path kind permissions = .ok (v.used + 1, x.exchange v.used (v.used + 1)) := by
  have hd : d < v.used := lt_used_of_isDirectory (hs.lookup_place hl).isDirectory
  have he : e < v.used := lt_used_of_isDirectory (hs.lookup_place hl').isDirectory
  obtain ⟨ho, ad, hi, a⟩ := hs.admits_of_create hcreate hl
  obtain ⟨hsw, hlookup, hadmits⟩ := hs.after_create hcreate hl
  obtain ⟨ho', ad', hj, b⟩ := hsw.admits_of_create hcreate' (hlookup _ e hl')
  rw [cutName_congr a.limits] at ad' b
  -- the other way round
  obtain ⟨y, hy, b'⟩ := ((hadmits e _ hne.symm he).mp ad').exists_create ho' hl' a.slot kind'
    permissions'
  obtain ⟨-, hlookup', hadmits'⟩ := hs.after_create hy hl'
  have hslot : y.used < y.pool.capacity := by
    have hslot := b.slot
    rwa [a.used, a.capacity, ← b'.used, ← b'.capacity] at hslot
  have ad'' := (hadmits' d _ hne hd).mpr ad
  rw [← cutName_congr b'.limits] at ad''
  obtain ⟨z, hz, a'⟩ := ad''.exists_create ho (hlookup' _ d hl) hslot kind permissions
  rw [cutName_congr b'.limits] at a'
  have hsame : z = x.exchange v.used (v.used + 1) :=
    (a.both b hne b'.isDirectory).eq_exchange hs (b'.both a' hne.symm a.isDirectory) hd he
      (fun f hf => rename_newNode hf kind permissions)
      (fun f hf => rename_newNode hf kind' permissions')
  rw [b'.used, hsame] at hz
  exact ⟨hi, hj.trans a.used, y, hy, hz⟩

end

/-- An operation that creates an entry is the creation. -/
theorem create_of_run {op : Op} {r : Answer} (hop : op.creation? = some (path, kind, permissions))
    (hrun : op.run v = (.ok r, w)) :
    ∃ h, r = .handle h ∧ v.create path kind permissions = .ok (h, w) := by
  rw [run_of_creation? hop] at hrun
  cases e : v.create path kind permissions with
  | error x => rw [e] at hrun; cases hrun
  | ok p =>
      rw [e] at hrun
      cases hrun
      exact ⟨p.1, rfl, rfl⟩

/-- **Commutation**: in a volume that any run of operations has led to, two operations that
create entries in two directories, and succeed one after the other, succeed the other way
round.  The one that comes first is given the number of slots that were in use as the
handle, the other one the number after it; and the two volumes that come of it are the same
but for the exchange of these two handles. -/
theorem independent_creations_commute (hr : Reachable limits v) {first second : Op}
    {path₁ path₂ : Text} {kind₁ kind₂ : Kind} {permissions₁ permissions₂ : Permissions}
    (hfirst : first.creation? = some (path₁, kind₁, permissions₁))
    (hsecond : second.creation? = some (path₂, kind₂, permissions₂))
    (hd : v.lookup (Path.splitParent path₁).1 = .ok d)
    (he : v.lookup (Path.splitParent path₂).1 = .ok e) (hne : d ≠ e) {r₁ r₂ : Answer}
    (hrun₁ : first.run v = (.ok r₁, w)) (hrun₂ : second.run w = (.ok r₂, x)) :
    r₁ = .handle v.used ∧ r₂ = .handle (v.used + 1) ∧
      ∃ y z, second.run v = (.ok (.handle v.used), y) ∧
        first.run y = (.ok (.handle (v.used + 1)), z) ∧
        z = x.exchange v.used (v.used + 1) ∧ z.cwd = x.cwd ∧ z.used = x.used := by
  obtain ⟨i, rfl, hcreate⟩ := create_of_run hfirst hrun₁
  obtain ⟨j, rfl, hcreate'⟩ := create_of_run hsecond hrun₂
  obtain ⟨rfl, rfl, y, hy, hz⟩ := hr.sound.create_comm hd he hne hcreate hcreate'
  refine ⟨rfl, rfl, y, _, ?_, ?_, rfl, ?_, ?_⟩
  · rw [run_of_creation? hsecond, hy]
    rfl
  · rw [run_of_creation? hfirst, hz]
    rfl
  · rw [cwd_create hz, cwd_create hy, cwd_create hcreate', cwd_create hcreate]
  · rw [used_exchange]

/-- The last two slots go to a file in the cursor and to a hidden directory in the root, and
the root has room for no other entry. -/
theorem independent_creations_commute_in_the_last_slots :
    ∃ fresh, format { maxNodes := 9, maxChildren := 6 } = .ok fresh ∧
      ∃ v, v = fresh.runAll [.mkdir "/home".toList, .cd "/home".toList] ∧ ∃ w x y z,
        (Op.touchWith "/home/./f".toList .all).run v = (.ok (.handle 7), w) ∧
        (Op.mkdir "/.g".toList).run w = (.ok (.handle 8), x) ∧
        (Op.mkdir "/.g".toList).run v = (.ok (.handle 7), y) ∧
        (Op.touchWith "/home/./f".toList .all).run y = (.ok (.handle 8), z) ∧
        z = x.exchange 7 8 ∧ z.cwd = 6 ∧ z.used = 9 ∧
        x.children root = [1, 2, 3, 4, 6, 8] ∧ z.children root = [1, 2, 3, 4, 6, 7] := by
  obtain ⟨fresh, hf, v, hv, hused, hd, he, w, x, hrun₁, hrun₂, hcwd, hfull, hchildren⟩ :
      ∃ fresh, format { maxNodes := 9, maxChildren := 6 } = .ok fresh ∧
        ∃ v, v = fresh.runAll [.mkdir "/home".toList, .cd "/home".toList] ∧ v.used = 7 ∧
          v.lookup (Path.splitParent "/home/./f".toList).1 = .ok 6 ∧
          v.lookup (Path.splitParent "/.g".toList).1 = .ok root ∧ ∃ w x,
          (Op.touchWith "/home/./f".toList .all).run v = (.ok (.handle 7), w) ∧
          (Op.mkdir "/.g".toList).run w = (.ok (.handle 8), x) ∧ x.cwd = 6 ∧ x.used = 9 ∧
          x.children root = [1, 2, 3, 4, 6, 8] :=
    ⟨_, rfl, _, rfl, by decide +kernel, by decide +kernel, by decide +kernel, _, _, rfl, rfl,
      by decide +kernel⟩
  have hr : Reachable _ v := ⟨fresh, hf, _, hv⟩
  have hfirst : (Op.touchWith "/home/./f".toList .all).creation? =
      some ("/home/./f".toList, .file, .all) := rfl
  have hsecond : (Op.mkdir "/.g".toList).creation? = some ("/.g".toList, .directory, .all) := rfl
  generalize Op.touchWith "/home/./f".toList .all = first at *
  generalize Op.mkdir "/.g".toList = second at *
  obtain ⟨-, -, y, z, hrun₃, hrun₄, hz, hzcwd, hzused⟩ :=
    independent_creations_commute hr hfirst hsecond hd he (by decide) hrun₁ hrun₂
  rw [hused] at hrun₃ hrun₄ hz
  refine ⟨fresh, hf, v, hv, w, x, y, z, hrun₁, hrun₂, hrun₃, hrun₄, hz, hzcwd.trans hcwd,
    hzused.trans hfull, hchildren, ?_⟩
  have hroot : root < x.used := by rw [hfull]; decide
  rw [hz, children_exchange hroot, Equiv.swap_apply_of_ne_of_ne (by decide) (by decide), hchildren]
  decide

end Volume

end RamFs
