import RamFs.Proofs.Navigable
import RamFs.Proofs.SystemArea

/-!
# RamFs.Proofs.Addressable

Entries out of reach.  A name is checked before it is cut, and a cut may leave
nothing of it, or one or two dots; an entry that goes by such a name is listed
by its directory, but its path leads elsewhere.

Which limits exclude this is said exactly by `always_addressable_iff`.  Six
octets of a name are enough.  With fewer there is always a name that is cut to an
unordinary one, and a volume that takes a new entry takes it; so two to five
octets, which are enough for the delivered names, only do in a volume that never
takes any.
-/

namespace RamFs

/-- A delivered volume has a slot and a place in its root for one more entry. -/
def Limits.Roomy (limits : Limits) : Prop :=
  Volume.systemNodes < limits.maxNodes.toNat ∧
    Volume.systemDirs.length < limits.maxChildren.toNat

instance (limits : Limits) : Decidable limits.Roomy := inferInstanceAs (Decidable (_ ∧ _))

namespace Path

/-- Five octets are not enough: a character of four octets falls off as a whole,
and at most two dots are left. -/
theorem exists_cut_not_ordinary {max : Nat} (hm : max < 6) :
    ∃ c, Ordinary c ∧ separator ∉ c ∧ ¬ Ordinary (Text.within max c) := by
  obtain hm | rfl | rfl : max < 4 ∨ max = 4 ∨ max = 5 := by omega
  · refine ⟨['😀'], by decide, by decide, ?_⟩
    have hwide : ¬ '😀'.utf8Size ≤ max := Nat.not_le.mpr hm
    rw [Text.within_cons, if_neg hwide]
    decide
  · exact ⟨['.', '😀'], by decide, by decide, by decide⟩
  · exact ⟨['.', '.', '😀'], by decide, by decide, by decide⟩

end Path

namespace Volume

variable {limits : Limits} {fresh v w : Volume} {h d dir : Handle}

/-! ## Entries within reach -/

/-- Every entry goes by an ordinary name. -/
def Addressable (v : Volume) : Prop :=
  ∀ h, v.isAttached h = true → h ≠ root → Path.Ordinary (v.node h).name

/-- A listing is the list of what its names lead to. -/
def ListingsLead (v : Volume) : Prop :=
  ∀ p es, p ≠ [] → v.ls p true = .ok es →
    ∃ dir, v.lookup p = .ok dir ∧ es = (v.children dir).map (fun h => Entry.ofNode (v.node h)) ∧
      ∀ h ∈ v.children dir,
        v.locate (p ++ Path.separator :: (Entry.ofNode (v.node h)).name) = .ok h

theorem Sound.addressable_iff (hs : Sound v) :
    Addressable v ↔ ∀ h d, v.parent h = some d → Path.Ordinary (v.node h).name := by
  constructor
  · intro ha h d hp
    refine ha h (hs.isAttached_of_linked (Or.inr ⟨d, hp⟩)) ?_
    rintro rfl
    rw [hs.parent_root] at hp
    contradiction
  · intro ho h ha hne
    obtain rfl | ⟨d, hp⟩ := (hs.isAttached_iff h).mp ha
    · exact absurd rfl hne
    · exact ho h d hp

theorem Navigable.listingsLead (hv : Navigable v) : ListingsLead v := by
  intro p es hp e
  obtain ⟨dir, hl, -, rfl⟩ := ls_eq_ok e
  refine ⟨dir, hl, by simp [Function.comp_def], fun h hm => ?_⟩
  have hparent := hv.sound.parent_of_mem hm
  have hc := Path.components_of_not_mem (hv.ordinary h dir hparent).1
    (hv.named.separator_not_mem hparent)
  have habs : Path.isAbsolute (p ++ Path.separator :: (v.node h).name) = Path.isAbsolute p := by
    cases p with
    | nil => contradiction
    | cons c t => rfl
  change v.locate (p ++ Path.separator :: (v.node h).name) = .ok h
  rw [locate_eq, Path.components_append, hc, List.dropLast_concat, List.getLastD_concat, startOf,
    habs]
  rw [lookup, startOf] at hl
  rw [hl]
  exact hv.leaf_name hparent

/-! ## Volumes that take no new entry -/

/-- What a new entry takes up in a volume that has no other than the delivered
ones. -/
theorem Frozen.roomy_of_adds {n : Node} (hz : Frozen fresh v) (hf : Fresh limits fresh)
    (hs : Sound v) (hl : v.limits = limits) (hu : v.used = systemNodes)
    (hw : (v.node dir).permissions.canWrite = true) (a : Adds v dir n w) : limits.Roomy := by
  have hdir := hz.eq_root_of_canWrite hf hu a.isDirectory hw
  have hslot := a.slot
  have hroom := a.room
  rw [hu, hs.capacity, hl] at hslot
  rw [hdir, hl] at hroom
  exact ⟨hslot, Nat.lt_of_le_of_lt hz.root_children.length_le hroom⟩

/-- Where there is no room, no operation takes a slot. -/
theorem frozen_of_not_roomy (hf : format limits = .ok fresh) (hfull : ¬ limits.Roomy)
    (hr : Reachable limits v) : Frozen fresh v ∧ v.used = systemNodes := by
  refine frozen_of_not_extend hf (fun u w hl hs hz hu e => ?_) hr
  obtain ⟨dir, component, kind, permissions, -, writable, -, -, adds⟩ := e
  exact hfull (hz.roomy_of_adds (fresh_format hf) hs hl hu writable adds)

/-- Two octets are enough for the delivered names. -/
theorem Fresh.ordinary (hf : Fresh limits fresh) (hn : 2 ≤ limits.maxNameLen)
    (hp : fresh.parent h = some d) : Path.Ordinary (fresh.node h).name := by
  obtain ⟨c, hc, hname⟩ := hf.exists_name hp
  have hshort : ∀ c ∈ systemDirs ++ [infoName], Path.Ordinary (Text.within 2 c) := by decide
  rw [hname, cutName, hf.limits_eq]
  exact (hshort c hc).extend (Text.within_prefix_within (UInt64.le_iff_toNat_le.mp hn) c)

/-- A volume that takes no new entry only has the delivered names. -/
theorem ordinary_of_not_roomy (hf : format limits = .ok fresh) (hfull : ¬ limits.Roomy)
    (hn : 2 ≤ limits.maxNameLen) (hr : Reachable limits v) (hp : v.parent h = some d) :
    Path.Ordinary (v.node h).name := by
  obtain ⟨hz, hu⟩ := frozen_of_not_roomy hf hfull hr
  have hh : h < systemNodes := by
    rw [← hu]
    exact lt_used_of_parent hp
  have face := hz.faces h hh
  rw [face.name]
  exact (fresh_format hf).ordinary hn (face.parent.symm.trans hp)

/-! ## Volumes that take one -/

/-- An entry can be created in a directory with room as soon as there is a slot. -/
theorem exists_createChild {name : Text} {kind : Kind} {permissions : Permissions}
    (hd : (v.node dir).isDirectory = true)
    (hroom : (v.children dir).length < v.limits.maxChildren.toNat)
    (hslot : v.used < v.pool.capacity) :
    ∃ w, v.createChild dir name kind permissions = .ok (v.used, w) := by
  cases e : v.createChild dir name kind permissions with
  | error x =>
      obtain ⟨hfull, -⟩ | ⟨-, hfull, -⟩ := createChild_eq_error e hd
      · exact absurd hroom (Nat.not_lt.mpr hfull)
      · exact absurd hfull (Nat.ne_of_lt hslot)
  | ok r =>
      obtain ⟨h, w⟩ := r
      exact ⟨w, by rw [(createChild_eq_ok e).1]⟩

/-- Once its name and its parent are settled, an entry is up to the parent. -/
theorem create_eq_of_lookup {path : Text} {kind : Kind} {permissions : Permissions}
    (ho : Path.Ordinary (Path.splitParent path).2)
    (hl : v.lookup (Path.splitParent path).1 = .ok dir) :
    v.create path kind permissions = (v.node dir).requireWrite >>= fun _ =>
      if (v.child? dir (v.cutName (Path.splitParent path).2)).isSome then .error .alreadyExists
      else v.createChild dir (v.cutName (Path.splitParent path).2) kind permissions := by
  have hname : ¬ ((Path.splitParent path).2 = [] ∨ Path.isSpecial (Path.splitParent path).2) := by
    simp [ho.1, ho.2]
  rw [create, hl]
  exact if_neg hname

/-- An entry is created as soon as the checks before that have passed. -/
theorem create_eq_createChild {path : Text} {kind : Kind} {permissions : Permissions}
    (ho : Path.Ordinary (Path.splitParent path).2)
    (hl : v.lookup (Path.splitParent path).1 = .ok dir)
    (hw : (v.node dir).permissions.canWrite = true)
    (hc : v.child? dir (v.cutName (Path.splitParent path).2) = none) :
    v.create path kind permissions =
      v.createChild dir (v.cutName (Path.splitParent path).2) kind permissions := by
  have hwrite : (v.node dir).requireWrite = .ok () := Node.requireWrite_eq_ok.mpr hw
  rw [create_eq_of_lookup ho hl, hwrite, hc]
  rfl

/-- A name that is ordinary before the cut only can be given to an entry of the
root, as no delivered entry has it. -/
theorem Fresh.mkdir_cut (hf : Fresh limits fresh) (hroomy : limits.Roomy)
    (hn : 2 ≤ limits.maxNameLen) {c : Text} (ho : Path.Ordinary c) (hc : Path.separator ∉ c)
    (hcut : ¬ Path.Ordinary (fresh.cutName c)) :
    ∃ w, fresh.mkdir (Path.separator :: c) = .ok (fresh.used, w) ∧
      Adds fresh root (newNode root (fresh.cutName c) .directory .all) w := by
  have hcomponents : Path.components (Path.separator :: c) = [c] := by
    rw [Path.components_cons_separator, Path.components_of_not_mem ho.1 hc]
  have hleaf : (Path.splitParent (Path.separator :: c)).2 = c := by
    rw [Path.leaf_eq_getLastD, hcomponents]
    rfl
  have hparent : fresh.lookup (Path.splitParent (Path.separator :: c)).1 = .ok root := by
    rw [lookup_parent, hcomponents]
    rfl
  have hwrite : (fresh.node root).permissions.canWrite = true := by
    rw [hf.node_root]
    rfl
  -- the delivered names are ordinary, so none of them is the cut name
  have hchild : fresh.child? root (fresh.cutName c) = none := by
    rw [child?, List.find?_eq_none]
    intro h hm e
    rw [← beq_iff_eq.mp e] at hcut
    exact hcut (hf.ordinary hn (hf.sound.parent_of_mem hm))
  have hcreate := @create_eq_createChild fresh root (Path.separator :: c) .directory .all
    (by rwa [hleaf]) hparent hwrite (by rwa [hleaf])
  rw [hleaf] at hcreate
  obtain ⟨w, hw⟩ := @exists_createChild fresh root (fresh.cutName c) .directory .all
    hf.sound.root_isDirectory
    (by rw [children, hf.node_root, hf.limits_eq]; exact hroomy.2)
    (by rw [hf.used_eq, hf.sound.capacity, hf.limits_eq]; exact hroomy.1)
  have a := (createChild_eq_ok hw).2
  rw [cutName_cutName] at a
  exact ⟨w, hcreate.trans hw, a⟩

/-- With less than two octets the delivered names are cut to nothing or a dot. -/
theorem Fresh.not_addressable (hf : Fresh limits fresh) (hn : ¬ 2 ≤ limits.maxNameLen) :
    ¬ Addressable fresh := by
  rw [hf.sound.addressable_iff]
  intro ho
  have hlt : limits.maxNameLen.toNat < 2 :=
    Nat.lt_of_not_le fun h => hn (UInt64.le_iff_toNat_le.mpr h)
  have hbin : Path.Ordinary (Text.within limits.maxNameLen.toNat "bin".toList) := by
    have := ho binHandle root (by rw [parent, hf.node_bin]; rfl)
    rwa [hf.node_bin] at this
  have hboot : Path.Ordinary (Text.within limits.maxNameLen.toNat ".boot".toList) := by
    have := ho bootHandle root (by rw [parent, hf.node_boot]; rfl)
    rwa [hf.node_boot] at this
  generalize limits.maxNameLen.toNat = max at hlt hbin hboot
  obtain rfl | rfl : max = 0 ∨ max = 1 := by omega
  · exact absurd hbin (by decide)
  · exact absurd hboot (by decide)

/-- With less than six octets one operation is enough to create an entry out of
reach, if there is room. -/
theorem Fresh.exists_not_addressable (hf : Fresh limits fresh) (hroomy : limits.Roomy)
    (hn : 2 ≤ limits.maxNameLen) (hn' : ¬ 6 ≤ limits.maxNameLen) :
    ∃ op : Op, ¬ Addressable (op.run fresh).2 := by
  have hlt : limits.maxNameLen.toNat < 6 :=
    Nat.lt_of_not_le fun h => hn' (UInt64.le_iff_toNat_le.mpr h)
  obtain ⟨c, ho, hc, hcut⟩ := Path.exists_cut_not_ordinary hlt
  rw [← hf.limits_eq] at hcut
  obtain ⟨w, hw, a⟩ := hf.mkdir_cut hroomy hn ho hc hcut
  have hs : Sound w := a.sound hf.sound (Or.inl rfl) rfl (Body.children_empty .directory)
  refine ⟨.mkdir (Path.separator :: c), ?_⟩
  rw [Op.run, hw, Outcome.ofChange, hs.addressable_iff]
  intro h
  have := h fresh.used root (by rw [a.parent_new]; rfl)
  rw [a.node_new] at this
  exact hcut this

/-! ## Which limits keep entries within reach -/

/-- Six octets of a name are enough, and two where no entry is ever added. -/
theorem addressable_of_reachable (hf : format limits = .ok fresh)
    (hn : 6 ≤ limits.maxNameLen ∨ (2 ≤ limits.maxNameLen ∧ ¬ limits.Roomy))
    (hr : Reachable limits v) : Addressable v ∧ ListingsLead v := by
  have hordinary : ∀ h d, v.parent h = some d → Path.Ordinary (v.node h).name := by
    intro h d hp
    obtain hsix | ⟨htwo, hfull⟩ := hn
    · exact hr.ordinary hsix hp
    · exact ordinary_of_not_roomy hf hfull htwo hr hp
  have hone : 1 ≤ limits.maxNameLen := by
    obtain hsix | ⟨htwo, -⟩ := hn
    · exact UInt64.le_trans (by decide) hsix
    · exact UInt64.le_trans (by decide) htwo
  have hv : Navigable v := ⟨hr.sound, hr.tidy hone, hr.named, hordinary⟩
  exact ⟨hv.sound.addressable_iff.mpr hordinary, hv.listingsLead⟩

/-- **Addressable entries**: a volume that any run of operations can lead to has
ordinary names only, and its listings lead to what they list, exactly if six
octets of a name are kept, or two and there is no room for a new entry. -/
theorem always_addressable_iff (hf : format limits = .ok fresh) :
    (∀ v, Reachable limits v → Addressable v ∧ ListingsLead v) ↔
      6 ≤ limits.maxNameLen ∨ (2 ≤ limits.maxNameLen ∧ ¬ limits.Roomy) := by
  have hfresh := fresh_format hf
  have hr : Reachable limits fresh := ⟨fresh, hf, [], rfl⟩
  refine ⟨fun h => ?_, fun hn v hv => addressable_of_reachable hf hn hv⟩
  by_contra hn
  rw [not_or, not_and, not_not] at hn
  by_cases htwo : 2 ≤ limits.maxNameLen
  · obtain ⟨op, hop⟩ := hfresh.exists_not_addressable (hn.2 htwo) htwo hn.1
    exact hop (h _ (hr.run op)).1
  · exact hfresh.not_addressable htwo (h _ hr).1

/-- With two octets and six slots nothing can go wrong, with five octets and more
slots something can. -/
theorem always_addressable_iff_at_the_bounds :
    (∃ fresh, format { maxNodes := 6, maxNameLen := 2 } = .ok fresh ∧
      ∀ v, Reachable { maxNodes := 6, maxNameLen := 2 } v → Addressable v ∧ ListingsLead v) ∧
      ∃ fresh, format { maxNodes := 7, maxNameLen := 5 } = .ok fresh ∧
        ∃ v, Reachable { maxNodes := 7, maxNameLen := 5 } v ∧
          ¬ (Addressable v ∧ ListingsLead v) := by
  refine ⟨⟨_, rfl, ?_⟩, _, rfl, ?_⟩
  · exact (@always_addressable_iff { maxNodes := 6, maxNameLen := 2 } _ rfl).mpr
      (Or.inr (by decide))
  · by_contra hnone
    have hall : ∀ v, Reachable { maxNodes := 7, maxNameLen := 5 } v →
        Addressable v ∧ ListingsLead v :=
      fun v hv => by_contra fun hn => hnone ⟨v, hv, hn⟩
    have hlimits := (@always_addressable_iff { maxNodes := 7, maxNameLen := 5 } _ rfl).mp hall
    exact absurd hlimits (by decide)

/-- Two octets are kept of three dots: the root lists an entry named by two dots,
which lead back to the root. -/
theorem entry_out_of_reach :
    ∃ fresh, format { maxNameLen := 2 } = .ok fresh ∧ ∃ v,
      v = fresh.runAll [.mkdir "/...".toList] ∧ (v.node 6).name = Path.up ∧
        v.locate "//..".toList = .ok root ∧ ¬ Addressable v ∧ ¬ ListingsLead v := by
  refine ⟨_, rfl, _, rfl, rfl, rfl, fun h => ?_, fun h => ?_⟩
  · exact absurd (h 6 rfl (by decide)) (by decide)
  · obtain ⟨dir, hl, -, hall⟩ := h "/".toList _ (by decide) rfl
    cases hl
    have := hall 6 (by decide)
    contradiction

end Volume

end RamFs
