import RamFs.Proofs.Addressable
import RamFs.Proofs.Capacity.Clearing

/-!
# RamFs.Proofs.Capacity.Room

Room for a vacancy.  A directory that may be written and has more entries than the
delivered ones has one that can be removed (`Reachable.exists_undelivered`).  Entries
removed from it are in the way of no walk that comes to it without climbing, as such a
walk only meets lower handles; so the vacancy is still there (`Vacancy.of_roomier`) and
can be filled, by the entry of a path or by a path that is made.
-/

namespace RamFs

namespace Volume

variable {limits : Limits} {v w : Volume} {a c d h : Handle} {cs pre post : List Text} {t : Text}

/-! ## Walks to a directory with more room -/

/-- A walk that never climbs comes to higher handles only. -/
theorem Sound.le_of_descend (hs : Sound v) (hup : Path.up ∉ cs) (e : v.descend a cs = .ok d) :
    a ≤ d := by
  induction cs generalizing a with
  | nil => cases e; exact Nat.le_refl _
  | cons x cs ih =>
    rw [List.mem_cons, not_or] at hup
    rw [descend] at e
    split at e
    case h_1 => contradiction
    case h_2 => contradiction
    case h_3 next hn =>
      have hle := ih hup.2 e
      obtain ⟨-, rfl⟩ | ⟨rfl, -⟩ | ⟨-, hchild, -⟩ := step_eq_some hn
      · exact hle
      · exact absurd rfl hup.1
      · exact (Nat.le_of_lt (hs.lt_of_mem (child?_eq_some hchild).1)).trans hle

/-- A step down from a directory whose entries are as before leads where it led. -/
theorem Shrinks.step_eq (s : Shrinks v w) (hc : w.children a = v.children a) (hup : t ≠ Path.up) :
    w.step a t = v.step a t := by
  simp [Volume.step, hup, s.cutName, Volume.child?, hc, s.name, s.isFile]

theorem Roomier.descend (r : Roomier d v w) (hs : Sound v) (hup : Path.up ∉ cs)
    (e : v.descend a cs = .ok d) : w.descend a cs = .ok d := by
  induction cs generalizing a with
  | nil => exact e
  | cons x cs ih =>
    rw [List.mem_cons, not_or] at hup
    rw [Volume.descend] at e ⊢
    split at e
    case h_1 => contradiction
    case h_2 => contradiction
    case h_3 next hn =>
      obtain ⟨rfl, rfl⟩ | ⟨rfl, -⟩ | ⟨-, hchild, -⟩ := step_eq_some hn
      · exact ih hup.2 e
      · exact absurd rfl hup.1
      · have hlt : a < next := hs.lt_of_mem (child?_eq_some hchild).1
        have hsame : w.children a = v.children a := by
          rw [children, r.node a (Nat.lt_of_lt_of_le hlt (hs.le_of_descend hup.2 e)), children]
        rw [r.toShrinks.step_eq hsame (Ne.symm hup.1), hn]
        exact ih hup.2 e

/-- A vacancy is still there when its directory has more room. -/
theorem Vacancy.of_roomier (x : Vacancy v a pre t d) (r : Roomier d v w) (hs : Sound v)
    (hw : Sound w) (ht : Tidy v) (hup : Path.up ∉ pre) : Vacancy w a pre t d := by
  refine ⟨r.descend hs hup x.walk, ?_, by rw [r.permissions]; exact x.writable⟩
  obtain ⟨hsp, hnone⟩ := step_eq_none x.step
  obtain ⟨hhere, hne⟩ := Path.isSpecial_eq_false.mp hsp
  have hgone : w.child? d (w.cutName t) = none := by
    refine Option.eq_none_iff_forall_ne_some.mpr fun i hi => ?_
    rw [r.toShrinks.cutName] at hi
    rw [r.toShrinks.child? hs hw ht hi] at hnone
    contradiction
  simp [Volume.step, hhere, hne, hgone]

/-! ## Where there is an entry to remove -/

/-- The entries of the root that were delivered are its directories. -/
theorem Reachable.delivered_children (hr : Reachable limits v) (hm : c ∈ v.children root)
    (hc : c < systemNodes) : c ∈ [binHandle, etcHandle, sysHandle, bootHandle] := by
  obtain ⟨fresh, hf, ops, rfl⟩ := id hr
  have hp := hr.sound.parent_of_mem hm
  have hface := ((frozen_runAll hf ops).faces c hc).parent
  rw [parent, hface] at hp
  obtain rfl | rfl | rfl | rfl | rfl | rfl := lt_systemNodes_cases hc
  · rw [(fresh_format hf).node_root] at hp
    contradiction
  · simp
  · simp
  · simp
  · simp
  · rw [(fresh_format hf).node_info] at hp
    exact absurd (Option.some.inj hp) (by decide : etcHandle ≠ root)

/-- A directory that may be written has an entry that was not delivered as soon as it
has more entries than the delivered directories. -/
theorem Reachable.exists_undelivered (hr : Reachable limits v)
    (hw : (v.node d).permissions.canWrite = true)
    (hmany : systemDirs.length < (v.children d).length) :
    ∃ c ∈ v.children d, systemNodes ≤ c := by
  obtain ⟨fresh, hf, ops, rfl⟩ := id hr
  obtain rfl | hle := (frozen_runAll hf ops).root_or_le_of_canWrite (fresh_format hf) hw
  · by_contra hnone
    have hsub : (fresh.runAll ops).children root ⊆ [binHandle, etcHandle, sysHandle, bootHandle] :=
      fun c hm => hr.delivered_children hm
        (Nat.lt_of_not_le fun hc => hnone ⟨c, hm, hc⟩)
    have hlength := ((hr.sound.nodup_children root).subperm hsub).length_le
    exact Nat.not_lt.mpr hlength hmany
  · obtain ⟨c, hm⟩ := List.exists_mem_of_length_pos (Nat.zero_lt_of_lt hmany)
    exact ⟨c, hm, hle.trans (Nat.le_of_lt (hr.sound.lt_of_mem hm))⟩

/-- Operations give a vacancy room, if there is a slot for it. -/
theorem OutOfRoom.exists_room (o : OutOfRoom v root pre t d) (hr : Reachable limits v)
    (hup : Path.up ∉ pre) (hslot : v.used < v.pool.capacity)
    (hmany : systemDirs.length < limits.maxChildren.toNat) :
    ∃ ops, (v.runAll ops).used = v.used ∧ Vacancy (v.runAll ops) root pre t d ∧
      ((v.runAll ops).children d).length < (v.runAll ops).limits.maxChildren.toNat := by
  have hfull := o.noRoom.resolve_right (Nat.ne_of_lt hslot)
  have hdir := (hr.sound.descend_place hr.sound.root_place o.walk).isDirectory
  have hn := hr.one_le_of_child? hdir o.writable (step_eq_none o.step).2
  rw [hr.limits_eq] at hfull
  obtain ⟨c, hm, hc⟩ := hr.exists_undelivered o.writable (Nat.lt_of_lt_of_le hmany hfull)
  obtain ⟨ops, r⟩ := hr.exists_roomier hn hm hc o.writable
  have hs' := (hr.runAll ops).sound
  refine ⟨ops, r.used, o.toVacancy.of_roomier r hr.sound hs' (hr.tidy hn) hup, ?_⟩
  rw [r.limits]
  exact Nat.lt_of_lt_of_le r.fewer (hr.sound.bounded d)

/-! ## Filling a vacancy -/

/-- A directory is added on the way if there is room for it. -/
theorem Sound.exists_addOnTheWay (hs : Sound v) (hd : v.Place d) (ht : t ≠ [] ∧ Path.separator ∉ t)
    (hstep : v.step d t = .ok none) (hw : (v.node d).permissions.canWrite = true)
    (hroom : (v.children d).length < v.limits.maxChildren.toNat)
    (hslot : v.used < v.pool.capacity) :
    ∃ u, v.addOnTheWay d t = .ok (v.used, u) ∧ Sound u ∧ u.Place v.used ∧
      Adds v d (newNode d (v.cutName t) .directory .all) u := by
  obtain ⟨u, hcreate⟩ := @exists_createChild v d t .directory .all hd.isDirectory hroom hslot
  have hwrite : (v.node d).requireWrite = .ok () := Node.requireWrite_eq_ok.mpr hw
  have hadd : v.addOnTheWay d t = .ok (v.used, u) := by
    simp [addOnTheWay, hwrite, hcreate, bind, Except.bind, Except.mapError]
  obtain ⟨edit, hp⟩ := Sound.edit_addOnTheWay hd ht hstep hadd
  exact ⟨u, hadd, edit.sound hs, hp, (createChild_eq_ok hcreate).2⟩

/-- A new directory has room for everything. -/
theorem Adds.new_directory (a : Adds v d (newNode d t .directory .all) w) :
    w.children v.used = [] ∧ (w.node v.used).permissions.canWrite = true := by
  rw [children, a.node_new]
  exact ⟨Body.children_empty .directory, (by decide : Permissions.all.canWrite = true)⟩

/-- A path is made in a new directory if there is a slot for each of its names. -/
theorem Sound.exists_descendMaking (hs : Sound v) (hd : v.Place d) (hempty : v.children d = [])
    (hw : (v.node d).permissions.canWrite = true) (hmax : 0 < v.limits.maxChildren.toNat)
    (hcs : ∀ c ∈ cs, c ≠ [] ∧ Path.separator ∉ c) (hup : Path.up ∉ cs)
    (hslots : v.used + cs.countP (· ≠ Path.here) ≤ v.pool.capacity) :
    ∃ h w, v.descendMaking d cs = (.ok h, w) := by
  induction cs generalizing v d with
  | nil => exact ⟨d, v, rfl⟩
  | cons c cs ih =>
    have hcs' := fun x hx => hcs x (List.mem_cons_of_mem c hx)
    rw [List.mem_cons, not_or] at hup
    by_cases hhere : c = Path.here
    · rw [List.countP_cons_of_neg (by simpa using hhere)] at hslots
      obtain ⟨h, w, e⟩ := ih hs hd hempty hw hmax hcs' hup.2 hslots
      refine ⟨h, w, ?_⟩
      rw [descendMaking, show v.step d c = .ok (some d) from if_pos hhere]
      exact e
    · have hstep : v.step d c = .ok none := by
        simp [step, hhere, Ne.symm hup.1, child?, hempty]
      rw [List.countP_cons_of_pos (by simpa using hhere)] at hslots
      obtain ⟨u, hadd, hs', hp, a⟩ := hs.exists_addOnTheWay hd (hcs c List.mem_cons_self) hstep hw
        (by rw [hempty]; exact hmax) (by omega)
      obtain ⟨hempty', hw'⟩ := a.new_directory
      obtain ⟨h, w, e⟩ := ih hs' hp hempty' hw' (by rw [a.limits]; exact hmax) hcs' hup.2
        (by rw [a.used, a.capacity]; omega)
      refine ⟨h, w, ?_⟩
      rw [descendMaking, hstep]
      simp only [hadd]
      exact e

/-- A vacancy with room is filled by creating the entry of its path. -/
theorem Vacancy.exists_create (x : Vacancy v root pre t d) (hs : Sound v) {path : Text}
    (ha : Path.isAbsolute path = true) (hpath : Path.components path = pre ++ [t])
    (hroom : (v.children d).length < v.limits.maxChildren.toNat)
    (hslot : v.used < v.pool.capacity) (kind : Kind) (permissions : Permissions) :
    ∃ w, v.create path kind permissions = .ok (v.used, w) := by
  obtain ⟨hsp, hnone⟩ := step_eq_none x.step
  have hne : t ≠ [] := (Path.of_mem_components (p := path) (by rw [hpath]; simp)).1
  have hleaf : (Path.splitParent path).2 = t := by
    rw [Path.leaf_eq_getLastD, hpath, List.getLastD_concat]
  have hparent : v.lookup (Path.splitParent path).1 = .ok d := by
    rw [lookup_parent, startOf, if_pos ha, hpath, List.dropLast_concat]
    exact x.walk
  have hdir := (hs.descend_place hs.root_place x.walk).isDirectory
  obtain ⟨w, hw⟩ := @exists_createChild v d (v.cutName t) kind permissions hdir hroom hslot
  refine ⟨w, ?_⟩
  rw [create_eq_createChild (by rw [hleaf]; exact ⟨hne, hsp⟩) hparent x.writable
    (by rw [hleaf]; exact hnone), hleaf]
  exact hw

/-- A vacancy with room is filled on the way of a path, if there are slots for the rest
of it too. -/
theorem Vacancy.exists_makePath (x : Vacancy v root pre t d) (hs : Sound v) {path : Text}
    (ha : Path.isAbsolute path = true) (hpath : Path.components path = pre ++ t :: post)
    (hup : Path.up ∉ post) (hroom : (v.children d).length < v.limits.maxChildren.toNat)
    (hslots : v.used + (post.countP (· ≠ Path.here) + 1) ≤ v.pool.capacity) :
    ∃ h w, v.makePath path = (.ok h, w) := by
  have hcs : ∀ c ∈ t :: post, c ≠ [] ∧ Path.separator ∉ c := fun c hc =>
    Path.of_mem_components (p := path) (by rw [hpath]; exact List.mem_append_right pre hc)
  have hplace := hs.descend_place hs.root_place x.walk
  obtain ⟨u, hadd, hs', hp, a⟩ := hs.exists_addOnTheWay hplace (hcs t List.mem_cons_self) x.step
    x.writable hroom (by omega)
  obtain ⟨hempty, hw⟩ := a.new_directory
  obtain ⟨h, w, e⟩ := hs'.exists_descendMaking hp hempty hw
    (by rw [a.limits]; exact Nat.zero_lt_of_lt hroom)
    (fun c hc => hcs c (List.mem_cons_of_mem t hc)) hup (by rw [a.used, a.capacity]; omega)
  refine ⟨h, w, ?_⟩
  rw [makePath, startOf, if_pos ha, hpath, descendMaking_append x.walk, descendMaking, x.step]
  simp only [hadd]
  exact e

/-- An entry that is created is a new node. -/
theorem adds_of_create {path : Text} {kind : Kind} {permissions : Permissions}
    (e : v.create path kind permissions = .ok (h, w)) : ∃ dir n, Adds v dir n w := by
  obtain ⟨-, dir, -, -, -, hcreate⟩ := create_eq_ok e
  exact ⟨dir, _, (createChild_eq_ok hcreate).2⟩

/-- Where nothing can be added, a path that is made is there already. -/
theorem descend_of_full (hfull : Full v) (e : v.descendMaking a cs = (.ok h, w)) :
    v.descend a cs = .ok h := by
  induction cs generalizing a with
  | nil => cases e; rfl
  | cons c cs ih =>
    rw [descendMaking] at e
    rw [descend]
    split at e
    case h_1 => cases e
    case h_2 next hn =>
      rw [hn]
      exact ih e
    case h_3 =>
      split at e
      case h_1 => cases e
      case h_2 next u hadd =>
        obtain ⟨-, adds⟩ := createChild_eq_ok (addOnTheWay_eq_ok hadd).2
        exact absurd hfull (Nat.ne_of_lt adds.slot)

end Volume

end RamFs
